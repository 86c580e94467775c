import Mathlib
import Monkey.Proofs.Inspected

/-!
# The entries of a dictionary

A dictionary literal lists entries, each a key and a value, and they are filed one after the other.
A hash key that was there already keeps its place and gets the new pair. So the dictionary has one
pair for each hash key, in the order in which the hash keys first appear in the literal, and that
pair is the last entry with the hash key (`Collects`).

`evaluate_dictionary` says so of every literal whose keys and values can be evaluated in order, each
in the machine that the one before it has left, and says what an index finds in the dictionary.
-/

namespace Monkey

/-! ## Filing -/

namespace Pairs

/-- The hash keys of pairs, in their order. -/
def hashes (pairs : Pairs) : List (Option HashKey) := pairs.map fun pair => pair.1.hashKey?

variable {hash hash' : HashKey} {entry : Value × Value} {pairs : Pairs}

theorem filedUnder_iff : filedUnder hash entry ↔ entry.1.hashKey? = some hash := decide_eq_true_iff

/-- A pair under a hash key that is there takes the place of the other one. -/
theorem hashes_insert_of_mem (h : entry.1.hashKey? = some hash) (hmem : some hash ∈ pairs.hashes) :
    (insert hash entry pairs).hashes = pairs.hashes := by
  induction pairs with
  | nil => cases hmem
  | cons first rest ih =>
    rw [insert]
    split
    · next hfirst =>
      rw [filedUnder_iff, ← h] at hfirst
      rw [hashes, hashes, List.map_cons, List.map_cons, hfirst]
    · next hfirst =>
      rw [filedUnder_iff] at hfirst
      have hrest : some hash ∈ hashes rest :=
        (List.mem_cons.mp hmem).resolve_left (Ne.symm hfirst)
      exact congrArg (first.1.hashKey? :: ·) (ih hrest)

/-- A pair under a new hash key goes to the end. -/
theorem hashes_insert_of_not_mem (h : entry.1.hashKey? = some hash)
    (hmem : some hash ∉ pairs.hashes) :
    (insert hash entry pairs).hashes = pairs.hashes ++ [some hash] := by
  rw [insert_eq_append entry hmem, hashes, List.map_append, List.map_singleton, h]
  rfl

theorem find?_insert_self (h : entry.1.hashKey? = some hash) :
    List.find? (filedUnder hash) (insert hash entry pairs) = some entry := by
  have hentry : filedUnder hash entry := filedUnder_iff.mpr h
  induction pairs with
  | nil => simp [insert, hentry]
  | cons first rest ih =>
    rw [insert]
    split
    · simp [hentry]
    · next hfirst => rw [List.find?_cons_of_neg hfirst, ih]

/-- Pairs under other hash keys are found as before. -/
theorem find?_insert_of_ne (h : entry.1.hashKey? = some hash) (hne : hash ≠ hash') :
    List.find? (filedUnder hash') (insert hash entry pairs) =
      List.find? (filedUnder hash') pairs := by
  have hother {pair : Value × Value} (hpair : pair.1.hashKey? = some hash) :
      ¬filedUnder hash' pair := by
    rw [filedUnder_iff, hpair]
    simpa using hne
  induction pairs with
  | nil => rw [insert, List.find?_cons_of_neg (hother h)]
  | cons first rest ih =>
    rw [insert]
    split
    · next hfirst =>
      rw [List.find?_cons_of_neg (hother h),
        List.find?_cons_of_neg (hother (filedUnder_iff.mp hfirst))]
    · simp only [List.find?_cons, ih]

end Pairs

/-- What is left of entries: one pair for each hash key, in the order in which the hash keys first
appear, and the last entry under each of them. -/
structure Collects (entries pairs : Pairs) : Prop where
  distinct : pairs.hashes.Nodup
  hashes : pairs.hashes = entries.hashes.eraseDups
  last (hash : HashKey) :
    List.find? (Pairs.filedUnder hash) pairs = entries.findRev? (Pairs.filedUnder hash)

namespace Collects

variable {hash : HashKey} {entry : Value × Value} {entries pairs : Pairs}

theorem nil : Collects [] [] := ⟨.nil, rfl, fun _ => rfl⟩

/-- The last entry under a hash key is found. -/
theorem find?_insert (h : Collects entries pairs) (hentry : entry.1.hashKey? = some hash)
    (hash' : HashKey) :
    List.find? (Pairs.filedUnder hash') (pairs.insert hash entry) =
      (entries ++ [entry]).findRev? (Pairs.filedUnder hash') := by
  rw [List.findRev?_eq_find?_reverse, List.reverse_concat, List.find?_cons]
  by_cases hsame : hash = hash'
  · subst hsame
    rw [Pairs.find?_insert_self hentry, Pairs.filedUnder_iff.mpr hentry]
  · have hother : Pairs.filedUnder hash' entry = false := by
      rw [Bool.eq_false_iff, ne_eq, Pairs.filedUnder_iff, hentry, Option.some.injEq]
      exact hsame
    rw [Pairs.find?_insert_of_ne hentry hsame, hother, h.last, List.findRev?_eq_find?_reverse]

/-- One more entry is filed. -/
theorem concat (h : Collects entries pairs) (hentry : entry.1.hashKey? = some hash) :
    Collects (entries ++ [entry]) (pairs.insert hash entry) := by
  have hhashes : Pairs.hashes (entries ++ [entry]) = entries.hashes ++ [some hash] := by
    rw [Pairs.hashes, List.map_append, List.map_singleton, hentry]
    rfl
  have hmem : some hash ∈ pairs.hashes ↔ some hash ∈ entries.hashes := by
    rw [h.hashes, List.mem_eraseDups]
  have hlast := h.find?_insert hentry
  by_cases hthere : some hash ∈ pairs.hashes
  · have hkept := Pairs.hashes_insert_of_mem hentry hthere
    refine ⟨hkept ▸ h.distinct, ?_, hlast⟩
    rw [hkept, hhashes, List.eraseDups_append, h.hashes]
    simp [List.removeAll, hmem.mp hthere]
  · have hadded := Pairs.hashes_insert_of_not_mem hentry hthere
    refine ⟨?_, ?_, hlast⟩
    · rw [hadded]
      exact h.distinct.append (List.nodup_singleton _) (List.disjoint_singleton.mpr hthere)
    · rw [hadded, hhashes, List.eraseDups_append, h.hashes]
      simp [List.removeAll, List.eraseDups_cons, mt hmem.mpr hthere]

end Collects

/-! ## Keys that can be used -/

/-- An integer with at most as many digits as an integer may have in text, or any other value. -/
def Value.Fits (key : Value) : Prop := ∀ n, key = .int n → n.natAbs < Nat.pow 10 Numeral.digitLimit

theorem Value.eq_int_of_hashKey? {key : Value} {n : Int} (h : key.hashKey? = some (.int n)) :
    key = .int n := by
  cases key with
  | int =>
    cases h
    rfl
  | float x => cases x <;> cases h
  | _ => cases h

/-- A hash key that can be written out can be used. -/
theorem Value.Fits.usable {key : Value} {hash : HashKey} (h : key.Fits)
    (hkey : key.hashKey? = some hash) : hash.usable = .ok hash := by
  cases hash with
  | int n =>
    rw [HashKey.usable, Numeral.ofInt?_eq (h n (eq_int_of_hashKey? hkey))]
    rfl
  | _ => rfl

theorem Value.usable_of_not_fits {key : Value} {hash : HashKey} (h : ¬key.Fits)
    (hkey : key.hashKey? = some hash) : hash.usable = .error .tooManyDigits := by
  unfold Fits at h
  push Not at h
  obtain ⟨n, rfl, hlong⟩ := h
  cases hkey
  rw [HashKey.usable, Numeral.ofInt?, if_pos hlong]
  rfl

/-- What an index finds in a dictionary. -/
theorem applyIndex_dict {index : Value} {hash : HashKey} (hindex : index.hashKey? = some hash)
    (i : Nat) (pairs : Pairs) (m : Machine) :
    (index.Fits → applyIndex (.dict i pairs) index m = .ok ((pairs.find? hash).getD .null) m) ∧
      (¬index.Fits →
        applyIndex (.dict i pairs) index m = .error (.unprintable .tooManyDigits) m) := by
  have hentry : applyIndex (.dict i pairs) index =
      Eval.written hash.usable >>= fun hash => pure ((pairs.find? hash).getD .null) := by
    rw [applyIndex, entryAt, hindex]
  constructor
  · intro hfits
    rw [hentry, hfits.usable hindex]
    rfl
  · intro hlong
    rw [hentry, Value.usable_of_not_fits hlong hindex]
    rfl

/-! ## Literals -/

/-- The nodes of a dictionary literal are evaluated in order, the keys and the values in turn, each
in the machine that the one before it has left. They give the entries, and the keys can be used. -/
inductive Lists (step : Node → Eval (Option Value)) :
    List (Node × Node) → Machine → Pairs → Machine → Prop where
  | nil : Lists step [] m [] m
  | cons (key : step keyNode m = .ok (some k) m₁) (hash : k.hashKey? = some h) (fits : k.Fits)
      (value : step valueNode m₁ = .ok (some v) m₂) (usable : ¬isError (some v))
      (more : Lists step nodes m₂ entries m₃) :
      Lists step ((keyNode, valueNode) :: nodes) m ((k, v) :: entries) m₃

theorem not_isError_of_hashKey? {k : Value} {hash : HashKey} (h : k.hashKey? = some hash) :
    ¬isError (some k) := by
  cases k with
  | error => cases h
  | _ => exact Bool.false_ne_true

/-- Entries are filed behind the ones that are there. -/
theorem Lists.exists_files {step : Node → Eval (Option Value)} {nodes : List (Node × Node)}
    {before entries pairs : Pairs} {m m' : Machine} (h : Lists step nodes m entries m')
    (hbefore : Collects before pairs) :
    ∃ pairs', Files step pairs nodes m pairs' m' ∧ Collects (before ++ entries) pairs' := by
  induction h generalizing before pairs with
  | nil => exact ⟨pairs, .nil, by rwa [List.append_nil]⟩
  | @cons keyNode m k m₁ hash valueNode v m₂ nodes entries m₃ key hhash fits value usable _ ih =>
    have hone : Collects (before ++ [(k, v)]) (pairs.insert hash (k, v)) := hbefore.concat hhash
    obtain ⟨pairs', hfiles, hcollects⟩ := ih hone
    have hinsert : insertPair hash (k, v) pairs m₂ = .ok (pairs.insert hash (k, v)) m₂ := by
      rw [insertPair, fits.usable hhash]
      rfl
    refine ⟨pairs', ?_, by rwa [List.append_cons]⟩
    exact .cons key (not_isError_of_hashKey? hhash) hhash value usable hinsert hfiles

/-- The literal gives a dictionary with what is left of its entries. -/
theorem Lists.exists_evaluate {depth scope : Nat} {nodes : List (Node × Node)} {entries : Pairs}
    {m m' : Machine} (h : Lists (fun node => evaluate depth node scope) nodes m entries m')
    (t : Token) :
    ∃ pairs : Pairs,
      evaluate (depth + 1) (.dictionary t nodes) scope m =
        .ok (some (.dict m'.nextIdentity pairs))
          { m' with nextIdentity := m'.nextIdentity + 1 } ∧
      Collects entries pairs := by
  obtain ⟨pairs, hfiles, hcollects⟩ := h.exists_files .nil
  rw [List.nil_append] at hcollects
  refine ⟨pairs, ?_, hcollects⟩
  have hvalue := withPairs_of_files hfiles [] fun entries => some <$> Eval.dict entries
  rw [List.append_nil] at hvalue
  exact hvalue

/-- **A dictionary literal is a finite map over hash keys, in the order of their first appearance.**
An index finds the value of the last entry with its hash key, or null if there is none; an integer
with too many digits is no index. -/
theorem evaluate_dictionary {depth scope : Nat} {nodes : List (Node × Node)} {entries : Pairs}
    {m m' : Machine} (t : Token)
    (h : Lists (fun node => evaluate depth node scope) nodes m entries m') :
    ∃ pairs : Pairs,
      evaluate (depth + 1) (.dictionary t nodes) scope m =
        .ok (some (.dict m'.nextIdentity pairs))
          { m' with nextIdentity := m'.nextIdentity + 1 } ∧
      pairs.hashes.Nodup ∧ pairs.hashes = entries.hashes.eraseDups ∧
      (∀ hash, List.find? (Pairs.filedUnder hash) pairs =
        entries.findRev? (Pairs.filedUnder hash)) ∧
      ∀ index hash i m₁, index.hashKey? = some hash →
        (index.Fits → applyIndex (.dict i pairs) index m₁ =
          .ok (((entries.findRev? (Pairs.filedUnder hash)).map Prod.snd).getD .null) m₁) ∧
        (¬index.Fits →
          applyIndex (.dict i pairs) index m₁ = .error (.unprintable .tooManyDigits) m₁) := by
  obtain ⟨pairs, hvalue, hcollects⟩ := h.exists_evaluate t
  refine ⟨pairs, hvalue, hcollects.distinct, hcollects.hashes, hcollects.last, ?_⟩
  intro index hash i m₁ hindex
  rw [← hcollects.last hash]
  exact applyIndex_dict hindex i pairs m₁

/-- The machine in which `a` is bound to 5, and nothing else. -/
def bindsFive : Machine := ⟨#[⟨none, [⟨"a", false, .int 5⟩]⟩], 0, [], #[]⟩

/-- The expression `if (true) { let a = 5; a }`. -/
def bindFive : Node :=
  .ifThen ⟨.ifWord, "if"⟩ (.boolean ⟨.trueWord, "true"⟩ true)
    (.block ⟨.lbrace, "\x7b"⟩
      [.letBinding ⟨.letWord, "let"⟩ ⟨⟨.ident, "a"⟩, "a"⟩ (.integer ⟨.int, "5"⟩ 5),
        .statement ⟨.ident, "a"⟩ (.identifier ⟨⟨.ident, "a"⟩, "a"⟩)])

/-- The entries of `{if (true) { let a = 5; a }: "one", "s": a, 5: "two"}`. -/
def repeatsFive : List (Node × Node) :=
  [(bindFive, .string ⟨.string, "one"⟩ "one"),
    (.string ⟨.string, "s"⟩ "s", .identifier ⟨⟨.ident, "a"⟩, "a"⟩),
    (.integer ⟨.int, "5"⟩ 5, .string ⟨.string, "two"⟩ "two")]

/-- A later value uses the name that an earlier key has bound. The repeated key keeps its place and
gets the later value. -/
theorem evaluate_dictionary_repeatsFive :
    Lists (fun node => evaluate 9 node 0) repeatsFive (.start [])
      [(.int 5, .str "one"), (.str "s", .int 5), (.int 5, .str "two")] bindsFive ∧
    ∃ pairs : Pairs,
      evaluate 10 (.dictionary ⟨.lbrace, "\x7b"⟩ repeatsFive) 0 (.start []) =
        .ok (some (.dict 0 pairs)) { bindsFive with nextIdentity := 1 } ∧
      pairs.hashes = [some (.int 5), some (.str "s")] ∧
      applyIndex (.dict 0 pairs) (.int 5) bindsFive = .ok (.str "two") bindsFive ∧
      applyIndex (.dict 0 pairs) (.bool true) bindsFive = .ok .null bindsFive := by
  obtain ⟨hbind, ha⟩ :
      evaluate 9 bindFive 0 (.start []) = .ok (some (.int 5)) bindsFive ∧
      evaluate 9 (.identifier ⟨⟨.ident, "a"⟩, "a"⟩) 0 bindsFive =
        .ok (some (.int 5)) bindsFive := by
    refine ⟨?_, ?_⟩
    all_goals cbv
  have hfive : (Value.int 5).Fits := by
    intro n hn
    cases hn
    exact Nat.lt_of_lt_of_le (by decide : 5 < 10) (by decide +kernel)
  have hstr (s : String) : (Value.str s).Fits := by rintro n ⟨⟩
  have hbool (b : Bool) : (Value.bool b).Fits := by rintro n ⟨⟩
  have hlists : Lists (fun node => evaluate 9 node 0) repeatsFive (.start [])
      [(.int 5, .str "one"), (.str "s", .int 5), (.int 5, .str "two")] bindsFive :=
    .cons hbind rfl hfive rfl (by decide) <|
      .cons rfl rfl (hstr "s") ha (by decide) <|
        .cons rfl rfl hfive rfl (by decide) .nil
  obtain ⟨pairs, hvalue, -, hhashes, -, hindex⟩ := evaluate_dictionary ⟨.lbrace, "\x7b"⟩ hlists
  refine ⟨hlists, pairs, hvalue, ?_, ?_, ?_⟩
  · rw [hhashes]
    decide
  · exact (hindex (.int 5) _ 0 bindsFive rfl).1 hfive
  · exact (hindex (.bool true) _ 0 bindsFive rfl).1 (hbool true)

/-- An integer with too many digits can be hashed, but it is no index, not even of an empty
dictionary. -/
theorem applyIndex_empty_long :
    ∃ hash, (Value.int (Nat.pow 10 Numeral.digitLimit : Nat)).hashKey? = some hash ∧
      Lists (fun node => evaluate 0 node 0) [] (.start []) [] (.start []) ∧
      ∃ m, evaluate 1 (.dictionary ⟨.lbrace, "\x7b"⟩ []) 0 (.start []) = .ok (some (.dict 0 [])) m ∧
        applyIndex (.dict 0 []) (.int (Nat.pow 10 Numeral.digitLimit : Nat)) m =
          .error (.unprintable .tooManyDigits) m := by
  have hlong {n : Nat} (hn : Nat.pow 10 Numeral.digitLimit ≤ n) : ¬(Value.int n).Fits :=
    fun hfits => Nat.not_lt.mpr hn (hfits n rfl)
  exact ⟨_, rfl, .nil, _, rfl, (applyIndex_dict rfl 0 [] _).2 (hlong (Nat.le_refl _))⟩

end Monkey
