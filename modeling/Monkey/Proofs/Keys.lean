import Mathlib
import Monkey.Proofs.Entries
import Monkey.Proofs.Residue

/-!
# Keys that are told apart

A dictionary compares hash keys and never the keys themselves. Integers, truth values and strings
are told apart by their hash keys. Binary numbers are not: different ones have the same hash key if
they collide, which `Value.Collides` says without hash keys. So two keys have the same hash key
exactly if they are equal or collide (`Value.hashKey?_eq_iff`).

`evaluate_dictionary_apart` says what follows for dictionary literals: every entry has a pair with
an equal key in the dictionary exactly if no two keys collide, and an index that collides with no
key is answered from the last entry with an equal key.
-/

namespace Monkey

namespace Value

/-- Values that can be keys. A NaN, which has no exact value and is not equal to itself, is left
out. -/
inductive IsKey : Value → Prop where
  | int (n : Int) : IsKey (.int n)
  | float {x : Binary64} (number : x.exactValue?.isSome) : IsKey (.float x)
  | bool (b : Bool) : IsKey (.bool b)
  | str (s : String) : IsKey (.str s)

/-- Values of the same kind that `==` finds equal. -/
def Equals (a b : Value) : Prop :=
  a.kind = b.kind ∧ ∀ m, applyInfix "==" a b m = .ok (.bool true) m

/-- Different binary numbers that residues do not tell apart. -/
def Collides (a b : Value) : Prop :=
  ¬a.Equals b ∧
    ∃ x y, a = .float x ∧ b = .float y ∧ Binary64.Confused x.proxy y.proxy

/-! ## Equal keys -/

/-- What a key stands for: equal keys stand for the same. -/
inductive Content where
  | int (n : Int)
  | number (u : Bool ⊕ ℚ)
  | bool (b : Bool)
  | str (s : String)

/-- What a value stands for, if it can be a key. -/
def content? : Value → Option Content
  | int n => some (.int n)
  | float x => x.exactValue?.map .number
  | bool b => some (.bool b)
  | str s => some (.str s)
  | _ => none

variable {a b c : Value}

/-- Equality as a comparison that has no effect. -/
theorem equals_of_pure {v : Bool} (h : applyInfix "==" a b = pure (.bool v))
    (hkind : a.kind = b.kind) : a.Equals b ↔ v := by
  rw [Equals, h]
  constructor
  · rintro ⟨-, hresult⟩
    cases hresult (.start [])
    rfl
  · rintro rfl
    exact ⟨hkind, fun _ => rfl⟩

theorem equals_int {m n : Int} : (int m).Equals (int n) ↔ m = n := by
  have hpure : applyInfix "==" (int m) (int n) =
      pure (.bool (Number.compare? (.int m) (.int n) = some .eq)) := rfl
  rw [equals_of_pure hpure rfl, decide_eq_true_iff, Number.compare?, Option.some.injEq]
  exact Std.LawfulEqOrd.compare_eq_iff_eq

/-- Binary numbers are equal by value, and no number equals one without a value. -/
theorem equals_float {x y : Binary64} :
    (float x).Equals (float y) ↔ x.exactValue? = y.exactValue? ∧ x.exactValue?.isSome := by
  have hpure : applyInfix "==" (float x) (float y) = pure (.bool (x.compare? y = some .eq)) := rfl
  rw [equals_of_pure hpure rfl, decide_eq_true_iff, Binary64.compare?_eq_iff]

theorem equals_bool {v w : Bool} : (bool v).Equals (bool w) ↔ v = w := by
  have hpure : applyInfix "==" (bool v) (bool w) = pure (.bool (v = w)) := rfl
  rw [equals_of_pure hpure rfl, decide_eq_true_iff]

theorem equals_str {s t : String} : (str s).Equals (str t) ↔ s = t := by
  have hpure : applyInfix "==" (str s) (str t) = pure (.bool (s = t)) := rfl
  rw [equals_of_pure hpure rfl, decide_eq_true_iff]

/-- Keys are equal if their contents are. -/
theorem equals_iff (ha : a.IsKey) (hb : b.IsKey) : a.Equals b ↔ a.content? = b.content? := by
  cases ha with
  | int m =>
    cases hb with
    | int n => simp [equals_int, content?]
    | _ => simp [Equals, kind, content?]
  | @float x hx =>
    cases hb with
    | @float y hy =>
      obtain ⟨u, hu⟩ := Option.isSome_iff_exists.mp hx
      obtain ⟨v, hv⟩ := Option.isSome_iff_exists.mp hy
      simp [equals_float, content?, hu, hv]
    | _ => simp [Equals, kind, content?]
  | bool v =>
    cases hb with
    | bool w => simp [equals_bool, content?]
    | _ => simp [Equals, kind, content?]
  | str s =>
    cases hb with
    | str t => simp [equals_str, content?]
    | _ => simp [Equals, kind, content?]

theorem Equals.fits (h : a.Equals b) (hfits : a.Fits) : b.Fits := by
  rintro n rfl
  cases a with
  | int m =>
    rw [equals_int] at h
    exact hfits n (congrArg int h)
  | _ => cases h.1

/-! ## Equal hash keys -/

theorem not_collides_of_equals (h : a.Equals b) : ¬a.Collides b := fun hcollides => hcollides.1 h

theorem hashKey?_float {x : Binary64} (h : x.exactValue?.isSome) :
    (float x).hashKey? = some (.residue x.residue) := by
  cases x with
  | nan => cases h
  | _ => rfl

/-- **Two keys have the same hash key exactly if they are equal or collide.** -/
theorem hashKey?_eq_iff (ha : a.IsKey) (hb : b.IsKey) :
    a.hashKey? = b.hashKey? ↔ a.Equals b ∨ a.Collides b := by
  cases ha with
  | int m =>
    cases hb with
    | int n => simp [equals_int, hashKey?, Collides]
    | float hy =>
      rw [hashKey?_float hy]
      simp [Equals, kind, hashKey?, Collides]
    | _ => simp [Equals, kind, hashKey?, Collides]
  | @float x hx =>
    rw [hashKey?_float hx]
    cases hb with
    | @float y hy =>
      have hconfused (h : (float x).Equals (float y)) : Binary64.Confused x.proxy y.proxy := by
        rw [Binary64.proxy_congr (equals_float.mp h).1]
        exact .refl _
      rw [hashKey?_float hy, Option.some.injEq, HashKey.residue.injEq,
        Binary64.residue_eq_iff hx hy]
      by_cases hequal : (float x).Equals (float y)
      · exact iff_of_true (hconfused hequal) (.inl hequal)
      · simp [Collides, hequal]
    | _ => simp [Equals, kind, hashKey?, Collides]
  | bool v =>
    cases hb with
    | bool w => simp [equals_bool, hashKey?, Collides]
    | float hy =>
      rw [hashKey?_float hy]
      simp [Equals, kind, hashKey?, Collides]
    | _ => simp [Equals, kind, hashKey?, Collides]
  | str s =>
    cases hb with
    | str t => simp [equals_str, hashKey?, Collides]
    | float hy =>
      rw [hashKey?_float hy]
      simp [Equals, kind, hashKey?, Collides]
    | _ => simp [Equals, kind, hashKey?, Collides]

end Value

/-! ## Dictionaries -/

theorem Value.IsKey.exists_hashKey? {key : Value} (h : key.IsKey) :
    ∃ hash, key.hashKey? = some hash := by
  cases h with
  | float number => exact ⟨_, Value.hashKey?_float number⟩
  | _ => exact ⟨_, rfl⟩

/-- The pair is the last of the entries whose key is equal to a key. -/
def Pairs.IsLast (entries : Pairs) (key : Value) (pair : Value × Value) : Prop :=
  ∃ before after, entries = before ++ pair :: after ∧ pair.1.Equals key ∧
    ∀ entry ∈ after, ¬entry.1.Equals key

variable {entries pairs : Pairs} {key : Value} {hash : HashKey} {pair : Value × Value}

theorem Pairs.IsLast.mem (h : entries.IsLast key pair) : pair ∈ entries := by
  obtain ⟨before, after, rfl, -, -⟩ := h
  exact List.mem_append_right before List.mem_cons_self

theorem Pairs.IsLast.equals (h : entries.IsLast key pair) : pair.1.Equals key := by
  obtain ⟨_, _, _, hequal, -⟩ := h
  exact hequal

/-- An entry that does not collide with a key has its hash key only if it is equal to it. -/
theorem Pairs.filedUnder_iff_equals (hkey : key.IsKey) (hhash : key.hashKey? = some hash)
    (hpair : pair.1.IsKey) (hapart : ¬pair.1.Collides key) :
    filedUnder hash pair ↔ pair.1.Equals key := by
  rw [filedUnder_iff, ← hhash, Value.hashKey?_eq_iff hpair hkey, or_iff_left hapart]

/-- Where no entry collides with a key, the last entry under its hash key is the last one with an
equal key. -/
theorem Pairs.findRev?_eq_some_iff (hkey : key.IsKey) (hhash : key.hashKey? = some hash)
    (hkeys : ∀ entry ∈ entries, entry.1.IsKey)
    (hapart : ∀ entry ∈ entries, ¬entry.1.Collides key) :
    entries.findRev? (filedUnder hash) = some pair ↔ entries.IsLast key pair := by
  have hfiled {entry : Value × Value} (h : entry ∈ entries) :
      filedUnder hash entry ↔ entry.1.Equals key :=
    filedUnder_iff_equals hkey hhash (hkeys entry h) (hapart entry h)
  rw [List.findRev?_eq_find?_reverse, List.find?_eq_some_iff_append]
  constructor
  · rintro ⟨hpair, after, before, hsplit, hafter⟩
    have hentries : entries = before.reverse ++ pair :: after.reverse := by
      simpa using congrArg List.reverse hsplit
    have hmem {entry : Value × Value} (h : entry ∈ after) : entry ∈ entries := by
      simp [hentries, h]
    refine ⟨before.reverse, after.reverse, hentries, (hfiled ?_).mp hpair, fun entry h => ?_⟩
    · simp [hentries]
    · have hentry := List.mem_reverse.mp h
      rw [← hfiled (hmem hentry)]
      simpa using hafter entry hentry
  · rintro ⟨before, after, rfl, hequal, hafter⟩
    refine ⟨(hfiled (by simp)).mpr hequal, after.reverse, before.reverse, by simp, ?_⟩
    intro entry h
    have hentry := List.mem_reverse.mp h
    have hother := mt (hfiled (by simp [hentry])).mp (hafter entry hentry)
    simpa using hother

namespace Collects

/-- Every entry has a pair with an equal key exactly if no two keys collide: of two keys that do, at
most one is equal to the key that is left. -/
theorem exists_isLast_iff (h : Collects entries pairs) (hkeys : ∀ entry ∈ entries, entry.1.IsKey) :
    (∀ entry ∈ entries, ∃ pair ∈ pairs, entries.IsLast entry.1 pair) ↔
      ∀ entry ∈ entries, ∀ entry' ∈ entries, ¬entry.1.Collides entry'.1 := by
  constructor
  · intro hkept entry hentry entry' hentry' hcollides
    obtain ⟨pair, hpair, hlast⟩ := hkept entry hentry
    obtain ⟨pair', hpair', hlast'⟩ := hkept entry' hentry'
    have hequal := hlast.equals
    have hequal' := hlast'.equals
    -- both pairs are under the hash key that the two entries share, so they are one pair
    have hhash := (Value.hashKey?_eq_iff (hkeys _ hlast.mem) (hkeys _ hentry)).mpr (.inl hequal)
    have hhash' := (Value.hashKey?_eq_iff (hkeys _ hlast'.mem) (hkeys _ hentry')).mpr (.inl hequal')
    have hshared := (Value.hashKey?_eq_iff (hkeys _ hentry) (hkeys _ hentry')).mpr (.inr hcollides)
    have hsame : pair = pair' :=
      List.inj_on_of_nodup_map h.distinct hpair hpair' (by rw [hhash, hhash', hshared])
    subst hsame
    rw [Value.equals_iff (hkeys _ hlast.mem) (hkeys _ hentry)] at hequal
    rw [Value.equals_iff (hkeys _ hlast.mem) (hkeys _ hentry')] at hequal'
    refine hcollides.1 ((Value.equals_iff (hkeys _ hentry) (hkeys _ hentry')).mpr ?_)
    rw [← hequal, hequal']
  · intro hapart entry hentry
    obtain ⟨hash, hhash⟩ := (hkeys entry hentry).exists_hashKey?
    have hsome : (List.find? (Pairs.filedUnder hash) pairs).isSome := by
      rw [h.last, List.findRev?_eq_find?_reverse, List.find?_isSome]
      exact ⟨entry, List.mem_reverse.mpr hentry, Pairs.filedUnder_iff.mpr hhash⟩
    obtain ⟨pair, hpair⟩ := Option.isSome_iff_exists.mp hsome
    refine ⟨pair, List.mem_of_find?_eq_some hpair, ?_⟩
    rw [h.last] at hpair
    exact (Pairs.findRev?_eq_some_iff (hkeys entry hentry) hhash hkeys
      fun entry' hentry' => hapart entry' hentry' entry hentry).mp hpair

/-- An index that collides with no entry is answered from the last entry with an equal key. -/
theorem applyIndex_of_isLast (h : Collects entries pairs)
    (hkeys : ∀ entry ∈ entries, entry.1.IsKey) (hfits : ∀ entry ∈ entries, entry.1.Fits)
    (hkey : key.IsKey) (hapart : ∀ entry ∈ entries, ¬entry.1.Collides key)
    (hlast : entries.IsLast key pair) (i : Nat) (m : Machine) :
    applyIndex (.dict i pairs) key m = .ok pair.2 m := by
  obtain ⟨hash, hhash⟩ := hkey.exists_hashKey?
  have hkeyfits : key.Fits := hlast.equals.fits (hfits pair hlast.mem)
  rw [(applyIndex_dict hhash i pairs m).1 hkeyfits, Pairs.find?, h.last,
    (Pairs.findRev?_eq_some_iff hkey hhash hkeys hapart).mpr hlast]
  rfl

/-- An index that is equal to no key and collides with none finds nothing. -/
theorem applyIndex_of_forall_not_equals (h : Collects entries pairs)
    (hkeys : ∀ entry ∈ entries, entry.1.IsKey) (hkey : key.IsKey) (hfits : key.Fits)
    (hapart : ∀ entry ∈ entries, ¬entry.1.Collides key)
    (hother : ∀ entry ∈ entries, ¬entry.1.Equals key) (i : Nat) (m : Machine) :
    applyIndex (.dict i pairs) key m = .ok .null m := by
  obtain ⟨hash, hhash⟩ := hkey.exists_hashKey?
  have hnone : entries.findRev? (Pairs.filedUnder hash) = none := by
    rw [Option.eq_none_iff_forall_ne_some]
    intro pair hpair
    have hlast := (Pairs.findRev?_eq_some_iff hkey hhash hkeys hapart).mp hpair
    exact hother pair hlast.mem hlast.equals
  rw [(applyIndex_dict hhash i pairs m).1 hfits, Pairs.find?, h.last, hnone]
  rfl

end Collects

/-- A key that can not be written out is not filed. -/
theorem Lists.fits {step : Node → Eval (Option Value)} {nodes : List (Node × Node)} {m m' : Machine}
    (h : Lists step nodes m entries m') : ∀ entry ∈ entries, entry.1.Fits := by
  induction h with
  | nil => exact List.forall_mem_nil _
  | cons _ _ fits _ _ _ ih => exact List.forall_mem_cons.mpr ⟨fits, ih⟩

/-- **Keys are told apart unless they collide.** Two keys have the same hash key exactly if they are
equal or collide. In a dictionary literal no entry is replaced by one with a different key exactly
if no two keys collide, and an index that collides with no key is answered from the last entry with
an equal key, or with null if there is none. -/
theorem evaluate_dictionary_apart {depth scope : Nat} {nodes : List (Node × Node)}
    {m m' : Machine} (t : Token)
    (h : Lists (fun node => evaluate depth node scope) nodes m entries m')
    (hkeys : ∀ entry ∈ entries, entry.1.IsKey) :
    (∀ a b : Value, a.IsKey → b.IsKey →
      (a.hashKey? = b.hashKey? ↔ a.Equals b ∨ a.Collides b)) ∧
    ∃ pairs : Pairs,
      evaluate (depth + 1) (.dictionary t nodes) scope m =
        .ok (some (.dict m'.nextIdentity pairs))
          { m' with nextIdentity := m'.nextIdentity + 1 } ∧
      ((∀ entry ∈ entries, ∃ pair ∈ pairs, entries.IsLast entry.1 pair) ↔
        ∀ entry ∈ entries, ∀ entry' ∈ entries, ¬entry.1.Collides entry'.1) ∧
      ∀ (index : Value) (i : Nat) (m₁ : Machine), index.IsKey →
        (∀ entry ∈ entries, ¬entry.1.Collides index) →
        (∀ pair, entries.IsLast index pair →
          applyIndex (.dict i pairs) index m₁ = .ok pair.2 m₁) ∧
        ((∀ entry ∈ entries, ¬entry.1.Equals index) → index.Fits →
          applyIndex (.dict i pairs) index m₁ = .ok .null m₁) := by
  refine ⟨fun a b ha hb => Value.hashKey?_eq_iff ha hb, ?_⟩
  obtain ⟨pairs, hvalue, hcollects⟩ := h.exists_evaluate t
  refine ⟨pairs, hvalue, hcollects.exists_isLast_iff hkeys, ?_⟩
  intro index i m₁ hindex hapart
  constructor
  · intro pair hlast
    exact hcollects.applyIndex_of_isLast hkeys h.fits hindex hapart hlast i m₁
  · intro hother hfits
    exact hcollects.applyIndex_of_forall_not_equals hkeys hindex hfits hapart hother i m₁

/-- The number `1.0`. -/
def floatOne : Value := .float (.finite false 4503599627370496 (-52))

/-- The entries of `{1: "a", 1.0: "b", true: "c", 1.0: "d"}`. -/
def keysOfOne : List (Node × Node) :=
  let one : Node := .float ⟨.dot, "."⟩ (.finite false 4503599627370496 (-52))
  [(.integer ⟨.int, "1"⟩ 1, .string ⟨.string, "a"⟩ "a"), (one, .string ⟨.string, "b"⟩ "b"),
    (.boolean ⟨.trueWord, "true"⟩ true, .string ⟨.string, "c"⟩ "c"),
    (one, .string ⟨.string, "d"⟩ "d")]

/-- Keys of different kinds are different keys, and an equal key replaces the pair. -/
theorem evaluate_dictionary_apart_keysOfOne :
    let entries : Pairs := [(.int 1, .str "a"), (floatOne, .str "b"), (.bool true, .str "c"),
      (floatOne, .str "d")]
    Lists (fun node => evaluate 9 node 0) keysOfOne (.start []) entries (.start []) ∧
    ∃ (pairs : Pairs) (m : Machine),
      evaluate 10 (.dictionary ⟨.lbrace, "\x7b"⟩ keysOfOne) 0 (.start []) =
        .ok (some (.dict 0 pairs)) m ∧
      (∀ entry ∈ entries, ∃ pair ∈ pairs, entries.IsLast entry.1 pair) ∧
      applyIndex (.dict 0 pairs) floatOne m = .ok (.str "d") m ∧
      applyIndex (.dict 0 pairs) (.str "1") m = .ok .null m := by
  intro entries
  have hone : (Value.int 1).Fits := by
    intro n hn
    cases hn
    exact Nat.lt_of_lt_of_le (by decide : 1 < 10) (by decide +kernel)
  have hfloat : floatOne.Fits := by rintro n ⟨⟩
  have hbool : (Value.bool true).Fits := by rintro n ⟨⟩
  have hstr : (Value.str "1").Fits := by rintro n ⟨⟩
  have hlists : Lists (fun node => evaluate 9 node 0) keysOfOne (.start []) entries (.start []) :=
    .cons rfl rfl hone rfl (by decide) <| .cons rfl rfl hfloat rfl (by decide) <|
      .cons rfl rfl hbool rfl (by decide) <| .cons rfl rfl hfloat rfl (by decide) .nil
  have hkeys : ∀ entry ∈ entries, entry.1.IsKey := by
    simp only [entries, List.forall_mem_cons]
    exact ⟨.int 1, .float rfl, .bool true, .float rfl, List.forall_mem_nil _⟩
  have hequal : floatOne.Equals floatOne := Value.equals_float.mpr ⟨rfl, rfl⟩
  -- the only key that is a binary number collides with no other one
  have hapart {key : Value} (hkey : key = floatOne ∨ ∀ x, key ≠ .float x) :
      ∀ entry ∈ entries, ¬entry.1.Collides key := by
    have hleft {a : Value} (ha : ∀ x, a ≠ .float x) : ¬a.Collides key :=
      fun ⟨_, x, _, h, _⟩ => ha x h
    have hone : ¬floatOne.Collides key := by
      rcases hkey with rfl | hkey
      · exact Value.not_collides_of_equals hequal
      · exact fun ⟨_, _, y, _, h, _⟩ => hkey y h
    simp only [entries, List.forall_mem_cons]
    exact ⟨hleft nofun, hone, hleft nofun, hone, List.forall_mem_nil _⟩
  obtain ⟨-, pairs, hvalue, hkept, hindex⟩ :=
    evaluate_dictionary_apart ⟨.lbrace, "\x7b"⟩ hlists hkeys
  refine ⟨hlists, pairs, _, hvalue, hkept.mpr ?_, ?_, ?_⟩
  · intro entry hentry entry' hentry'
    refine hapart ?_ entry hentry
    simp only [entries, List.mem_cons, List.not_mem_nil, or_false] at hentry'
    rcases hentry' with rfl | rfl | rfl | rfl
    · exact .inr nofun
    · exact .inl rfl
    · exact .inr nofun
    · exact .inl rfl
  · refine (hindex floatOne 0 _ (.float rfl) (hapart (.inl rfl))).1 (floatOne, .str "d") ?_
    exact ⟨entries.take 3, [], rfl, hequal, List.forall_mem_nil _⟩
  · refine (hindex (.str "1") 0 _ (.str "1") (hapart (.inr nofun))).2 ?_ hstr
    simp [entries, Value.Equals, Value.kind, floatOne]

/-- The number `-1.0`. -/
def minusOne : Value := .float (.finite true 4503599627370496 (-52))

/-- The number `-2.0`. -/
def minusTwo : Value := .float (.finite true 4503599627370496 (-51))

/-- The dictionary `{-1.0: 1, -2.0: 2}`. -/
def minusOneAndTwo : Node :=
  let minus (e : Int) : Node :=
    .prefixOp ⟨.minus, "-"⟩ "-" (.float ⟨.dot, "."⟩ (.finite false 4503599627370496 e))
  .dictionary ⟨.lbrace, "\x7b"⟩
    [(minus (-52), .integer ⟨.int, "1"⟩ 1), (minus (-51), .integer ⟨.int, "2"⟩ 2)]

/-- Different keys with the same hash key: the entry of `-1.0` is replaced, and `-1.0` is answered
with the value of `-2.0`. -/
theorem replaced_minusOne :
    minusOne.IsKey ∧ minusTwo.IsKey ∧ ¬minusOne.Equals minusTwo ∧
    minusOne.hashKey? = minusTwo.hashKey? ∧
    ∃ m, evaluate 9 minusOneAndTwo Machine.globalScope (.start []) =
        .ok (some (.dict 0 [(minusTwo, .int 2)])) m ∧
      applyIndex (.dict 0 [(minusTwo, .int 2)]) minusOne m = .ok (.int 2) m := by
  have hdifferent : ¬minusOne.Equals minusTwo := by
    rintro ⟨-, hequal⟩
    cases hequal (.start [])
  exact ⟨.float rfl, .float rfl, hdifferent, by decide, _, rfl, rfl⟩

end Monkey
