import Monkey.Proofs.Nesting
import Monkey.Proofs.Spelling

/-!
# Inspected data

The text of a value that is made of integers, truth values, arrays and dictionaries is a program,
and that program evaluates to the value again (`evaluate_inspect`).

A `Script` is a text with its tokens and its tree. One is found for each value from those for the
values that it holds, with all that is to be said about it: the text is the inspected value, it is
spelled by the tokens, they are read as the tree, and the tree evaluates to the value.
-/

namespace Monkey

open Text

/-! ## Data -/

/-- Values that are made of integers with a text, truth values, arrays and dictionaries. The keys of
a dictionary are such integers or truth values, and no two of them are the same. -/
inductive Data : Value → Prop where
  | int (short : n.natAbs < Nat.pow 10 Numeral.digitLimit) : Data (.int n)
  | bool : Data (.bool b)
  | array (elements : ∀ v ∈ vs, Data v) : Data (.array i vs)
  | dict (keys : ∀ pair ∈ pairs, Data pair.1) (usable : ∀ pair ∈ pairs, pair.1.hashKey?.isSome)
      (distinct : (pairs.map fun pair => pair.1.hashKey?).Nodup)
      (values : ∀ pair ∈ pairs, Data pair.2) : Data (.dict i pairs)

namespace Value

mutual

/-- The value without its identities: two values that arose from different evaluations are told
apart by nothing but these. -/
def anonymous : Value → Value
  | array _ elements => array 0 (anonymousEach elements)
  | dict _ pairs => dict 0 (anonymousPairs pairs)
  | function _ parameters body scope => function 0 parameters body scope
  | returned _ v => returned 0 (anonymous v)
  | v => v

def anonymousEach : List Value → List Value
  | [] => []
  | v :: vs => anonymous v :: anonymousEach vs

def anonymousPairs : List (Value × Value) → List (Value × Value)
  | [] => []
  | (k, v) :: pairs => (anonymous k, anonymous v) :: anonymousPairs pairs

end

theorem anonymousEach_eq_map (vs : List Value) : anonymousEach vs = vs.map anonymous := by
  induction vs with
  | nil => rfl
  | cons v vs ih => rw [anonymousEach, ih, List.map_cons]

theorem anonymousPairs_eq_map (pairs : List (Value × Value)) :
    anonymousPairs pairs = pairs.map fun pair => (pair.1.anonymous, pair.2.anonymous) := by
  induction pairs with
  | nil => rfl
  | cons pair pairs ih => rw [anonymousPairs, ih, List.map_cons]

/-- Identities have no part in hash keys. -/
theorem hashKey?_anonymous (v : Value) : v.anonymous.hashKey? = v.hashKey? := by
  cases v <;> simp [anonymous, hashKey?]

end Value

/-! ## Scripts -/

/-- A text with its tokens and its tree. -/
structure Script where
  text : String
  tokens : List Token
  tree : Node

/-- What stands behind an expression is no part of it. -/
structure Closed (rest : List Token) : Prop where
  noPoint : nextKind rest ≠ .dot
  loose : ∀ context, ¬Binds context (nextKind rest)

/-- A tree evaluates to a value, up to identities, if evaluation may nest deep enough. Nothing else
happens to the machine. -/
def Denotes (tree : Node) (v : Value) : Prop :=
  ∃ d, ∀ depth ≥ d, ∀ scope m, ∃ v' k,
    evaluate depth tree scope m = .ok (some v') { m with nextIdentity := k } ∧
    v'.anonymous = v.anonymous ∧ ¬stops (some v')

/-- The text is the inspected value, and it is a program that evaluates to the value. -/
structure Script.Writes (s : Script) (v : Value) : Prop where
  inspect : v.inspect = .ok s.text
  spells : Spells s.text.toList s.tokens
  reads : ∀ rest, Closed rest → Reads (.expression .lowest s.tree) (s.tokens ++ rest) rest
  denotes : Denotes s.tree v

/-- An error stops a row of statements. -/
theorem not_isError_of_not_stops {v : Value} (h : ¬stops (some v)) : ¬isError (some v) := by
  cases v with
  | error => exact absurd rfl h
  | _ => exact Bool.false_ne_true

theorem Closed.nil : Closed [] where
  noPoint := TokenKind.noConfusion
  loose _ := Nat.not_lt_zero _

/-- What ends an expression closes it. -/
theorem Closed.of_endsExpression {rest : List Token} (h : (nextKind rest).endsExpression) :
    Closed rest where
  noPoint hdot := by
    rw [hdot] at h
    cases h
  loose _ := not_binds_of_endsExpression h

/-- A value that is written out is read as an expression of its own. -/
theorem Script.Writes.alone {s : Script} {v : Value} (h : s.Writes v) :
    ReadsAlone s.tokens s.tree :=
  fun rest hrest => h.reads rest (.of_endsExpression hrest)

/-! ## Numbers and truth values -/

/-- A value that is given at once is given at every depth but zero. -/
theorem Denotes.of_pure {tree : Node} {v : Value}
    (h : ∀ depth scope, evaluate (depth + 1) tree scope = pure (some v)) (hv : ¬stops (some v)) :
    Denotes tree v := by
  refine ⟨1, fun depth hdepth scope m => ?_⟩
  obtain ⟨depth, rfl⟩ := Nat.exists_eq_add_of_le' hdepth
  exact ⟨v, m.nextIdentity, congrFun (h depth scope) m, rfl, hv⟩

/-- An integer in bounds has its decimal digits for a text, with a sign in front. -/
theorem Numeral.ofInt?_eq {n : Int} (h : n.natAbs < Nat.pow 10 digitLimit) :
    ofInt? n = some (String.ofList
      (if n < 0 then '-' :: Decimal.digitText n.natAbs else Decimal.digitText n.natAbs)) := by
  unfold ofInt?
  split
  · next hlong => exact absurd hlong (Nat.not_le_of_lt h)
  · rfl

theorem intText_eq {n : Int} (h : n.natAbs < Nat.pow 10 Numeral.digitLimit) :
    Value.intText n = .ok (String.ofList
      (if n < 0 then '-' :: Decimal.digitText n.natAbs else Decimal.digitText n.natAbs)) := by
  unfold Value.intText
  rw [Numeral.ofInt?_eq h]

/-- A negative integer is read as an operator and a number, and evaluated to the integer. -/
theorem exists_writes_int {n : Int} (h : n.natAbs < Nat.pow 10 Numeral.digitLimit) :
    ∃ s : Script, s.Writes (.int n) := by
  let t : Token := ⟨.int, String.ofList (Decimal.digitText n.natAbs)⟩
  have hread {context rest} (hrest : Closed rest) :
      Reads (.expression context (.integer t n.natAbs)) (t :: rest) rest :=
    .expression (.integer rfl (Numeral.readInt?_digitText h) hrest.noPoint)
      (.unextended (hrest.loose _))
  by_cases hn : n < 0
  · -- a sign and digits, which are read as an operator in front of a number
    refine ⟨⟨String.ofList ('-' :: Decimal.digitText n.natAbs), [TokenKind.minus.sign, t],
      .prefixOp TokenKind.minus.sign "-" (.integer t n.natAbs)⟩, ?_, ?_, fun rest hrest => ?_, ?_⟩
    · rw [Value.inspect, intText_eq h, if_pos hn]
    · rw [String.toList_ofList]
      exact (Spells.digitText _).sign (by decide)
    · exact .expression (.prefixOp rfl (hread hrest)) (.unextended (hrest.loose _))
    · have habs : -(n.natAbs : Int) = n := by omega
      refine ⟨2, fun depth hdepth scope m => ?_⟩
      obtain ⟨depth, rfl⟩ := Nat.exists_eq_add_of_le' hdepth
      exact ⟨.int (-n.natAbs), m.nextIdentity, rfl, by rw [habs], Bool.false_ne_true⟩
  · refine ⟨⟨t.literal, [t], .integer t n.natAbs⟩, ?_, ?_, fun rest hrest => hread hrest, ?_⟩
    · rw [Value.inspect, intText_eq h, if_neg hn]
    · rw [String.toList_ofList]
      exact .digitText _
    · have habs : (n.natAbs : Int) = n := Int.natAbs_of_nonneg (Int.not_lt.mp hn)
      rw [habs]
      exact .of_pure (fun _ _ => rfl) Bool.false_ne_true

/-- The words for the truth values are read as them. -/
theorem exists_writes_bool (b : Bool) : ∃ s : Script, s.Writes (.bool b) := by
  let t : Token := if b then ⟨.trueWord, "true"⟩ else ⟨.falseWord, "false"⟩
  have hkind : t.kind.isTruthWord ∧ b = decide (t.kind = .trueWord) := by cases b <;> decide
  refine ⟨⟨t.literal, [t], .boolean t b⟩, ?_, ?_, fun rest hrest => ?_, ?_⟩
  · cases b <;> rfl
  · cases b with
    | true => exact Spells.wordText (by decide) (by decide)
    | false => exact Spells.wordText (by decide) (by decide)
  · rw [hkind.2]
    exact .expression (.boolean hkind.1) (.unextended (hrest.loose _))
  · exact .of_pure (fun _ _ => rfl) Bool.false_ne_true

/-! ## Arrays -/

/-- Something is found for each element of a list. -/
theorem exists_parts {R : α → β → Prop} {bs : List β} (h : ∀ b ∈ bs, ∃ a, R a b) :
    ∃ parts : List (α × β), parts.map Prod.snd = bs ∧ ∀ part ∈ parts, R part.1 part.2 := by
  induction bs with
  | nil => exact ⟨[], rfl, List.forall_mem_nil _⟩
  | cons b bs ih =>
    obtain ⟨⟨a, ha⟩, hbs⟩ := List.forall_mem_cons.mp h
    obtain ⟨parts, hparts, hR⟩ := ih hbs
    exact ⟨(a, b) :: parts, by rw [List.map_cons, hparts], List.forall_mem_cons.mpr ⟨ha, hR⟩⟩

/-- The script of an array, from the scripts of its elements. -/
def Script.array (scripts : List Script) : Script where
  text := "[" ++ ", ".intercalate (scripts.map Script.text) ++ "]"
  tokens := TokenKind.lbracket.sign :: withCommas (scripts.map Script.tokens) ++
    [TokenKind.rbracket.sign]
  tree := .array TokenKind.lbracket.sign (scripts.map Script.tree)

/-- Texts with commas and blanks between them spell their tokens with commas between them. -/
theorem Script.spells_commas {scripts : List Script}
    (h : ∀ s ∈ scripts, Spells s.text.toList s.tokens) :
    Spells (", ".intercalate (scripts.map Script.text)).toList
      (withCommas (scripts.map Script.tokens)) := by
  have hpieces : ∀ piece ∈ scripts.map fun s => (s.text.toList, s.tokens),
      Spells piece.1 piece.2 := by
    intro piece hpiece
    obtain ⟨s, hs, rfl⟩ := List.mem_map.mp hpiece
    exact h s hs
  simpa [Function.comp_def] using Spells.commas hpieces

/-- Expressions with commas between them are read as a list. -/
theorem Script.reads_commas {t : Token} {scripts : List Script} (ht : t.kind.endsExpression)
    (hcomma : t.kind ≠ .comma) (h : ∀ s ∈ scripts, ReadsAlone s.tokens s.tree) (rest : List Token) :
    Reads (.expressions (scripts.map Script.tree))
      (withCommas (scripts.map Script.tokens) ++ t :: rest) (t :: rest) := by
  have hpieces : ∀ piece ∈ scripts.map fun s => (s.tokens, s.tree), ReadsAlone piece.1 piece.2 := by
    intro piece hpiece
    obtain ⟨s, hs, rfl⟩ := List.mem_map.mp hpiece
    exact h s hs
  have hreads := reads_expressions rest ht hcomma hpieces
  rw [List.map_map, List.map_map] at hreads
  exact hreads

theorem Script.spells_array {scripts : List Script}
    (h : ∀ s ∈ scripts, Spells s.text.toList s.tokens) :
    Spells (array scripts).text.toList (array scripts).tokens := by
  have hspells := (spells_commas h).bracketed
  simpa [array] using hspells

/-- The brackets enclose the list of the elements. -/
theorem Script.reads_array {scripts : List Script} (h : ∀ s ∈ scripts, ReadsAlone s.tokens s.tree)
    (rest : List Token) :
    Reads (.first (array scripts).tree) ((array scripts).tokens ++ rest) rest := by
  rw [array, List.append_assoc, List.cons_append]
  exact .array rfl (reads_commas rfl TokenKind.noConfusion h rest) rfl

/-- Values that are written out are shown as they are written. -/
theorem inspectAll_eq {parts : List (Script × Value)} (h : ∀ part ∈ parts, part.1.Writes part.2) :
    Value.inspectAll (parts.map Prod.snd) = .ok (parts.map fun part => part.1.text) := by
  induction parts with
  | nil => rfl
  | cons part parts ih =>
    obtain ⟨hpart, hparts⟩ := List.forall_mem_cons.mp h
    simp only [List.map_cons, Value.inspectAll, hpart.inspect, ih hparts]
    rfl

/-- The trees of several scripts are evaluated one after the other. -/
theorem exists_gives {parts : List (Script × Value)} (h : ∀ part ∈ parts, part.1.Writes part.2) :
    ∃ d, ∀ depth ≥ d, ∀ scope m, ∃ vs k,
      Gives (fun e => evaluate depth e scope) ((parts.map Prod.fst).map Script.tree) m vs
        { m with nextIdentity := k } ∧
      vs.map Value.anonymous = (parts.map Prod.snd).map Value.anonymous := by
  induction parts with
  | nil => exact ⟨0, fun depth _ scope m => ⟨[], m.nextIdentity, .nil, rfl⟩⟩
  | cons part parts ih =>
    obtain ⟨hpart, hparts⟩ := List.forall_mem_cons.mp h
    obtain ⟨d₁, hfirst⟩ := hpart.denotes
    obtain ⟨d₂, hmore⟩ := ih hparts
    refine ⟨max d₁ d₂, fun depth hdepth scope m => ?_⟩
    obtain ⟨v, k₁, hv, hsame, hstops⟩ := hfirst depth (by omega) scope m
    obtain ⟨vs, k₂, hvs, hsames⟩ := hmore depth (by omega) scope { m with nextIdentity := k₁ }
    refine ⟨v :: vs, k₂, .cons hv (not_isError_of_not_stops hstops) hvs, ?_⟩
    simp only [List.map_cons, hsame, hsames]

/-- An array is evaluated to one with the same elements, up to identities. -/
theorem exists_writes_array {vs : List Value} (i : Nat) (h : ∀ v ∈ vs, ∃ s : Script, s.Writes v) :
    ∃ s : Script, s.Writes (.array i vs) := by
  obtain ⟨parts, rfl, hparts⟩ := exists_parts h
  have hscript : ∀ s ∈ parts.map Prod.fst, ∃ v, s.Writes v := by
    intro s hs
    obtain ⟨part, hpart, rfl⟩ := List.mem_map.mp hs
    exact ⟨part.2, hparts part hpart⟩
  refine ⟨.array (parts.map Prod.fst), ?_, ?_, fun rest hrest => ?_, ?_⟩
  · rw [Value.inspect, inspectAll_eq hparts, Script.array, List.map_map]
    rfl
  · exact Script.spells_array fun s hs => (hscript s hs).elim fun _ h => h.spells
  · have hfirst := Script.reads_array (fun s hs => (hscript s hs).elim fun _ h => h.alone) rest
    exact .expression hfirst (.unextended (hrest.loose _))
  · obtain ⟨d, hgives⟩ := exists_gives hparts
    refine ⟨d + 1, fun depth hdepth scope m => ?_⟩
    obtain ⟨depth, rfl⟩ := Nat.exists_eq_add_of_le' (Nat.le_trans (Nat.le_add_left 1 d) hdepth)
    obtain ⟨vs, k, hvs, hsame⟩ := hgives depth (by omega) scope m
    refine ⟨.array k vs, k + 1, ?_, ?_, Bool.false_ne_true⟩
    · exact withValues_eq_of_gives hvs _
    · rw [Value.anonymous, Value.anonymous, Value.anonymousEach_eq_map, Value.anonymousEach_eq_map,
        hsame]

/-! ## Dictionaries -/

/-- The script of a dictionary, from the scripts of its keys and values. -/
def Script.dict (scripts : List (Script × Script)) : Script where
  text := "\x7b" ++ ", ".intercalate (scripts.map fun s => s.1.text ++ ": " ++ s.2.text) ++ "\x7d"
  tokens := TokenKind.lbrace.sign ::
    withCommas (scripts.map fun s => s.1.tokens ++ TokenKind.colon.sign :: s.2.tokens) ++
      [TokenKind.rbrace.sign]
  tree := .dictionary TokenKind.lbrace.sign (scripts.map fun s => (s.1.tree, s.2.tree))

theorem Script.spells_dict {scripts : List (Script × Script)}
    (h : ∀ s ∈ scripts, Spells s.1.text.toList s.1.tokens ∧ Spells s.2.text.toList s.2.tokens) :
    Spells (dict scripts).text.toList (dict scripts).tokens := by
  have hpieces : ∀ piece ∈ scripts.map fun s => (s.1.text.toList ++ ':' :: ' ' :: s.2.text.toList,
      s.1.tokens ++ TokenKind.colon.sign :: s.2.tokens), Spells piece.1 piece.2 := by
    intro piece hpiece
    obtain ⟨s, hs, rfl⟩ := List.mem_map.mp hpiece
    obtain ⟨hkey, hvalue⟩ := h s hs
    have hblank : Spells (' ' :: _) _ := hvalue.blank (by decide)
    exact hkey.append (hblank.sign (by decide)) (by decide)
  have hspells := (Spells.commas hpieces).braced
  simpa [dict, Function.comp_def] using hspells

/-- The braces enclose the list of the pairs. -/
theorem Script.reads_dict {scripts : List (Script × Script)}
    (h : ∀ s ∈ scripts, ReadsAlone s.1.tokens s.1.tree ∧ ReadsAlone s.2.tokens s.2.tree)
    (rest : List Token) :
    Reads (.first (dict scripts).tree) ((dict scripts).tokens ++ rest) rest := by
  have hpieces : ∀ piece ∈ scripts.map fun s => ((s.1.tokens, s.1.tree), s.2.tokens, s.2.tree),
      ReadsAlone piece.1.1 piece.1.2 ∧ ReadsAlone piece.2.1 piece.2.2 := by
    intro piece hpiece
    obtain ⟨s, hs, rfl⟩ := List.mem_map.mp hpiece
    exact h s hs
  have hreads := reads_pairs (t := TokenKind.rbrace.sign) rest rfl hpieces
  rw [List.map_map, List.map_map] at hreads
  rw [dict, List.append_assoc, List.cons_append]
  exact .dictionary rfl hreads rfl

/-- A pair under a new hash key is put at the end. -/
theorem Pairs.insert_eq_append {hash : HashKey} {pairs : Pairs} (pair : Value × Value)
    (h : some hash ∉ pairs.map fun pair => pair.1.hashKey?) :
    pairs.insert hash pair = pairs ++ [pair] := by
  induction pairs with
  | nil => rfl
  | cons first rest ih =>
    rw [List.map_cons, List.mem_cons, not_or] at h
    have hfiled : ¬filedUnder hash first := by
      simpa [filedUnder, eq_comm] using h.1
    rw [insert, if_neg hfiled, ih h.2, List.cons_append]

/-- The integers among data have a text, so they can be keys. -/
theorem Data.insertPair_eq {k : Value} {hash : HashKey} (hk : Data k)
    (hhash : k.hashKey? = some hash) (pair : Value × Value) (pairs : Pairs) (m : Machine) :
    insertPair hash pair pairs m = .ok (pairs.insert hash pair) m := by
  have husable : hash.usable = .ok hash := by
    cases hk with
    | int short =>
      cases hhash
      unfold HashKey.usable
      dsimp only
      rw [Numeral.ofInt?_eq short]
      rfl
    | bool =>
      cases hhash
      rfl
    | array | dict => cases hhash
  unfold insertPair
  rw [husable]
  rfl

/-- Pairs are shown with a colon and a blank between key and value. -/
theorem inspectPairs_eq {parts : List ((Script × Script) × Value × Value)}
    (h : ∀ part ∈ parts, part.1.1.Writes part.2.1 ∧ part.1.2.Writes part.2.2) :
    Value.inspectPairs (parts.map Prod.snd) =
      .ok (parts.map fun part => part.1.1.text ++ ": " ++ part.1.2.text) := by
  induction parts with
  | nil => rfl
  | cons part parts ih =>
    obtain ⟨⟨hkey, hvalue⟩, hparts⟩ := List.forall_mem_cons.mp h
    simp only [List.map_cons, Value.inspectPairs, hkey.inspect, hvalue.inspect, ih hparts]
    rfl

/-- The pairs of several trees, one after the other, behind pairs with other hash keys. -/
theorem exists_files {parts : List ((Script × Script) × Value × Value)}
    (h : ∀ part ∈ parts, part.1.1.Writes part.2.1 ∧ part.1.2.Writes part.2.2)
    (hdata : ∀ part ∈ parts, Data part.2.1) (husable : ∀ part ∈ parts, part.2.1.hashKey?.isSome) :
    ∃ d, ∀ depth ≥ d, ∀ scope m, ∀ pairs : Pairs,
      ((pairs.map fun pair => pair.1.hashKey?) ++ parts.map fun part => part.2.1.hashKey?).Nodup →
      ∃ pairs' k,
        Files (fun e => evaluate depth e scope) pairs
          ((parts.map Prod.fst).map fun s => (s.1.tree, s.2.tree)) m (pairs ++ pairs')
          { m with nextIdentity := k } ∧
        (pairs'.map fun pair => (pair.1.anonymous, pair.2.anonymous)) =
          parts.map fun part => (part.2.1.anonymous, part.2.2.anonymous) := by
  induction parts with
  | nil =>
    refine ⟨0, fun depth _ scope m pairs _ => ⟨[], m.nextIdentity, ?_, rfl⟩⟩
    rw [List.append_nil]
    exact .nil
  | cons part parts ih =>
    obtain ⟨⟨hkey, hvalue⟩, hparts⟩ := List.forall_mem_cons.mp h
    obtain ⟨hpartdata, hdata⟩ := List.forall_mem_cons.mp hdata
    obtain ⟨hpartusable, husable⟩ := List.forall_mem_cons.mp husable
    obtain ⟨hash, hhash⟩ := Option.isSome_iff_exists.mp hpartusable
    obtain ⟨d₁, hkey⟩ := hkey.denotes
    obtain ⟨d₂, hvalue⟩ := hvalue.denotes
    obtain ⟨d₃, hmore⟩ := ih hparts hdata husable
    refine ⟨max d₁ (max d₂ d₃), fun depth hdepth scope m pairs hnodup => ?_⟩
    obtain ⟨key, k₁, hk, hsamekey, hstopskey⟩ := hkey depth (by omega) scope m
    obtain ⟨value, k₂, hv, hsamevalue, hstopsvalue⟩ :=
      hvalue depth (by omega) scope { m with nextIdentity := k₁ }
    -- the new key has the hash key of the old one, which is not there yet
    have hnewhash : key.hashKey? = some hash := by
      rw [← Value.hashKey?_anonymous, hsamekey, Value.hashKey?_anonymous, hhash]
    rw [List.map_cons, hhash] at hnodup
    have hnew : some hash ∉ pairs.map fun pair => pair.1.hashKey? := fun hmem =>
      (List.nodup_append.mp hnodup).2.2 _ hmem _ List.mem_cons_self rfl
    have hinsert := hpartdata.insertPair_eq hhash (key, value) pairs { m with nextIdentity := k₂ }
    rw [Pairs.insert_eq_append _ hnew] at hinsert
    obtain ⟨pairs', k₃, hfiles, hsame⟩ := hmore depth (by omega) scope { m with nextIdentity := k₂ }
      (pairs ++ [(key, value)]) (by
        simpa [hnewhash] using hnodup)
    refine ⟨(key, value) :: pairs', k₃, ?_, ?_⟩
    · rw [List.map_cons, List.append_cons]
      exact .cons hk (not_isError_of_not_stops hstopskey) hnewhash hv
        (not_isError_of_not_stops hstopsvalue) hinsert hfiles
    · simp only [List.map_cons, hsame, hsamekey, hsamevalue]

/-- The pairs are put in one after the other; the keys are distinct, so none is replaced. -/
theorem exists_writes_dict {pairs : Pairs} (i : Nat) (hdata : ∀ pair ∈ pairs, Data pair.1)
    (husable : ∀ pair ∈ pairs, pair.1.hashKey?.isSome)
    (hdistinct : (pairs.map fun pair => pair.1.hashKey?).Nodup)
    (h : ∀ pair ∈ pairs, ∃ s : Script × Script, s.1.Writes pair.1 ∧ s.2.Writes pair.2) :
    ∃ s : Script, s.Writes (.dict i pairs) := by
  obtain ⟨parts, rfl, hparts⟩ := exists_parts h
  have hscript : ∀ s ∈ parts.map Prod.fst, ∃ k v, s.1.Writes k ∧ s.2.Writes v := by
    intro s hs
    obtain ⟨part, hpart, rfl⟩ := List.mem_map.mp hs
    exact ⟨part.2.1, part.2.2, hparts part hpart⟩
  refine ⟨.dict (parts.map Prod.fst), ?_, ?_, fun rest hrest => ?_, ?_⟩
  · rw [Value.inspect, inspectPairs_eq hparts, Script.dict, List.map_map]
    rfl
  · refine Script.spells_dict fun s hs => ?_
    obtain ⟨k, v, hkey, hvalue⟩ := hscript s hs
    exact ⟨hkey.spells, hvalue.spells⟩
  · refine .expression (Script.reads_dict (fun s hs => ?_) rest) (.unextended (hrest.loose _))
    obtain ⟨k, v, hkey, hvalue⟩ := hscript s hs
    exact ⟨hkey.alone, hvalue.alone⟩
  · obtain ⟨d, hfiles⟩ := exists_files hparts
      (fun part hpart => hdata part.2 (List.mem_map_of_mem hpart))
      fun part hpart => husable part.2 (List.mem_map_of_mem hpart)
    rw [List.map_map] at hdistinct
    refine ⟨d + 1, fun depth hdepth scope m => ?_⟩
    obtain ⟨depth, rfl⟩ := Nat.exists_eq_add_of_le' (Nat.le_trans (Nat.le_add_left 1 d) hdepth)
    obtain ⟨pairs, k, hpairs, hsame⟩ := hfiles depth (by omega) scope m [] hdistinct
    refine ⟨.dict k pairs, k + 1, ?_, ?_, Bool.false_ne_true⟩
    · have hvalue := withPairs_of_files hpairs [] fun entries => some <$> Eval.dict entries
      rw [List.append_nil] at hvalue
      exact hvalue
    · rw [Value.anonymous, Value.anonymous, Value.anonymousPairs_eq_map,
        Value.anonymousPairs_eq_map, hsame, List.map_map]
      rfl

/-! ## All data -/

/-- By induction on the data. -/
theorem Data.exists_writes {v : Value} (h : Data v) : ∃ s : Script, s.Writes v := by
  induction h with
  | int short => exact exists_writes_int short
  | bool => exact exists_writes_bool _
  | array _ ih => exact exists_writes_array _ ih
  | dict keys usable distinct _ ihkeys ihvalues =>
    refine exists_writes_dict _ keys usable distinct fun pair hpair => ?_
    obtain ⟨key, hkey⟩ := ihkeys pair hpair
    obtain ⟨value, hvalue⟩ := ihvalues pair hpair
    exact ⟨(key, value), hkey, hvalue⟩

/-- A script is a program of one statement. -/
theorem Script.Writes.parse_eq {s : Script} {v : Value} (h : s.Writes v) :
    ∃ t, parse s.text = ⟨[.statement t s.tree], []⟩ := by
  have hvalue := h.reads [] .nil
  rw [List.append_nil] at hvalue
  exact ⟨_, parse_of_spells h.spells hvalue⟩

/-- **Inspected data evaluates back to itself.** The text of data is a program without errors. If
evaluation may nest deep enough, the program gives the same value, up to identities, in any fresh
machine, and it does nothing else. -/
theorem evaluate_inspect {v : Value} (h : Data v) :
    ∃ text, v.inspect = .ok text ∧ (parse text).errors = [] ∧
      ∃ d, ∀ depth ≥ d, ∀ input, ∃ v' k,
        evaluate depth (parse text).tree Machine.globalScope (.start input) =
          .ok (some v') { Machine.start input with nextIdentity := k } ∧
        v'.anonymous = v.anonymous := by
  obtain ⟨s, hs⟩ := h.exists_writes
  obtain ⟨t, hparse⟩ := hs.parse_eq
  obtain ⟨d, hdenotes⟩ := hs.denotes
  refine ⟨s.text, hs.inspect, by rw [hparse], d + 2, fun depth hdepth input => ?_⟩
  obtain ⟨depth, rfl⟩ := Nat.exists_eq_add_of_le' (Nat.le_trans (Nat.le_add_left 2 d) hdepth)
  obtain ⟨v', k, hv', hsame, hstops⟩ := hdenotes depth (by omega) Machine.globalScope (.start input)
  have hstatement : evaluate (depth + 1) (.statement t s.tree) Machine.globalScope (.start input) =
      .ok (some v') { Machine.start input with nextIdentity := k } := hv'
  refine ⟨v', k, ?_, hsame⟩
  rw [hparse, Parsed.tree, evaluate, evaluateWith, evaluateProgram_cons, Eval.bind_ok _ hstatement,
    if_neg hstops]
  rfl

/-- The value `{-12: [true, 0, []], false: {}}`. -/
def sampleData : Value :=
  .dict 7 [(.int (-12), .array 3 [.bool true, .int 0, .array 4 []]), (.bool false, .dict 5 [])]

/-- The sample is made of data only. -/
theorem data_sampleData : Data sampleData := by
  have hint (n : Int) (h : n.natAbs < 100) : Data (.int n) :=
    .int (Nat.lt_of_lt_of_le h (by decide +kernel))
  have harray : Data (.array 3 [.bool true, .int 0, .array 4 []]) :=
    .array (by simp [hint, Data.bool, Data.array])
  have hempty : Data (.dict 5 []) := .dict (by simp) (by simp) (by simp) (by simp)
  refine .dict ?_ (by decide) (by decide) ?_
  · simp [hint, Data.bool]
  · simp [harray, hempty]

theorem evaluate_inspect_sampleData :
    let text := "\x7b-12: [true, 0, []], false: \x7b\x7d\x7d"
    Data sampleData ∧ sampleData.inspect = .ok text ∧ (parse text).errors = [] ∧
      ∃ d, ∀ depth ≥ d, ∀ input, ∃ v k,
        evaluate depth (parse text).tree Machine.globalScope (.start input) =
          .ok (some v) { Machine.start input with nextIdentity := k } ∧
        v.anonymous = sampleData.anonymous := by
  obtain ⟨text, hinspect, hrest⟩ := evaluate_inspect data_sampleData
  have htext : sampleData.inspect.toOption =
      some "\x7b-12: [true, 0, []], false: \x7b\x7d\x7d" := by
    decide +kernel
  rw [hinspect, Except.toOption, Option.some.injEq] at htext
  subst htext
  exact ⟨data_sampleData, hinspect, hrest⟩

end Monkey
