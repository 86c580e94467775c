import Mathlib
import Monkey.Proofs.Hidden
import Monkey.Proofs.Range
import Monkey.Proofs.Sums

/-!
# Operations that halt

Most of what a program can do wrong gives an error value. Some operators and built-in functions have
no value at all for some operands, and halt the evaluation. For each of them there is a lemma that
says for which operands it does so, and how: `applyInfix_eq_error_iff`, `applyIndex_eq_error_iff`,
`insertPair_eq_error_iff`, and for the built-in functions `Builtin.fails_of_call`.

All others end with a value (`Ends`).
-/

namespace Monkey

open Binary64 (rangeEnd)

/-! ## Calls that halt -/

namespace Builtin

/-- There is an integer beyond the range of binary numbers, and only numbers stand in front of it. -/
def HasLarge (vs : List Value) : Prop :=
  ∃ earlier n later, vs = earlier ++ .int n :: later ∧ (∀ u ∈ earlier, u.number?.isSome) ∧
    rangeEnd ≤ n.natAbs

/-- The integers in front of the first binary number, added to `start`, come to a sum that can not be
converted, or a later integer can not be converted. -/
def Overflows (start : Int) (vs : List Value) : Prop :=
  ∃ (ns : List Int) (x : Binary64) (later : List Value), vs = ns.map .int ++ .float x :: later ∧
    (rangeEnd ≤ (start + ns.sum).natAbs ∨ HasLarge later)

/-- The prompt that arguments of `gets` ask for. -/
def prompt? : List Value → Option String
  | [] => some ""
  | [.str text] => some text
  | _ => none

/-- A call of a built-in function halts. -/
inductive Fails : Builtin → List Value → Machine → Halt → Machine → Prop where
  | exit : Fails .exit [] m .exit m
  | puts (shown : Value.inspectAll earlier = .ok texts) (hides : v.Hides reason) :
      Fails .puts (earlier ++ v :: later) m (.unprintable reason)
        { m with output := m.output ++ (texts.map Piece.line).toArray }
  | endOfInput (asked : prompt? vs = some prompt) (empty : m.input = []) :
      Fails .gets vs m .endOfInput { m with output := m.output.push (.prompt prompt) }
  | interrupted (asked : prompt? vs = some prompt) (pressed : m.input = .interrupt :: behind) :
      Fails .gets vs m .interrupted
        { m with output := m.output.push (.prompt prompt), input := behind }
  | int : Fails .int [.float (.infinite negative)] m (.arithmetic .infinityToInteger) m
  | float (large : rangeEnd ≤ n.natAbs) :
      Fails .float [.int n] m (.arithmetic .integerTooLarge) m
  | str (hides : v.Hides reason) : Fails .str [v] m (.unprintable reason) m
  | sumarr (large : Overflows 0 vs) :
      Fails .sumarr [.array i vs] m (.arithmetic .integerTooLarge) m

/-! ## Sums -/

/-- The first value is the large integer, or it is a number and one of the others is large. -/
theorem hasLarge_cons {v : Value} {vs : List Value} :
    HasLarge (v :: vs) ↔
      (∃ n, v = .int n ∧ rangeEnd ≤ n.natAbs) ∨ v.number?.isSome ∧ HasLarge vs := by
  constructor
  · rintro ⟨earlier, n, later, hsplit, hnumbers, hlarge⟩
    cases earlier with
    | nil =>
      cases hsplit
      exact .inl ⟨n, rfl, hlarge⟩
    | cons u earlier =>
      cases hsplit
      obtain ⟨hv, hmore⟩ := List.forall_mem_cons.mp hnumbers
      exact .inr ⟨hv, earlier, n, later, rfl, hmore, hlarge⟩
  · rintro (⟨n, rfl, hlarge⟩ | ⟨hv, earlier, n, later, rfl, hnumbers, hlarge⟩)
    · exact ⟨[], n, vs, rfl, List.forall_mem_nil _, hlarge⟩
    · exact ⟨v :: earlier, n, later, rfl, List.forall_mem_cons.mpr ⟨hv, hnumbers⟩, hlarge⟩

/-- An integer in front is added exactly. -/
theorem overflows_int {start n : Int} {vs : List Value} :
    Overflows start (.int n :: vs) ↔ Overflows (start + n) vs := by
  constructor
  · rintro ⟨ns, x, later, hsplit, hlarge⟩
    cases ns with
    | nil => cases hsplit
    | cons first ns =>
      cases hsplit
      rw [List.sum_cons, ← Int.add_assoc] at hlarge
      exact ⟨ns, x, later, rfl, hlarge⟩
  · rintro ⟨ns, x, later, rfl, hlarge⟩
    refine ⟨n :: ns, x, later, rfl, ?_⟩
    rwa [List.sum_cons, ← Int.add_assoc]

/-- From the first binary number on, every sum is one of binary numbers. -/
theorem overflows_float {start : Int} {x : Binary64} {vs : List Value} :
    Overflows start (.float x :: vs) ↔ rangeEnd ≤ start.natAbs ∨ HasLarge vs := by
  constructor
  · rintro ⟨ns, y, later, hsplit, hlarge⟩
    cases ns with
    | nil =>
      cases hsplit
      rwa [List.sum_nil, Int.add_zero] at hlarge
    | cons => cases hsplit
  · intro hlarge
    refine ⟨[], x, vs, rfl, ?_⟩
    rwa [List.sum_nil, Int.add_zero]

/-- A value that is no number ends the sum with an error value and no halt. -/
theorem not_overflows {start : Int} {v : Value} {vs : List Value} (hv : v.number? = none) :
    ¬Overflows start (v :: vs) := by
  rintro ⟨ns, x, later, hsplit, -⟩
  cases ns with
  | nil =>
    cases hsplit
    cases hv
  | cons =>
    cases hsplit
    cases hv

end Builtin

/-! ## Steps that end -/

/-- A step ends with a result, from whatever machine it starts. -/
def Ends (x : Eval α) : Prop := ∀ m halt m', x m ≠ .error halt m'

section

variable {m m' : Machine} {halt : Halt}

/-- A step in two parts halts in the first one or in the second. -/
theorem Eval.bind_eq_error {x : Eval α} {f : α → Eval β} (h : (x >>= f) m = .error halt m') :
    x m = .error halt m' ∨ ∃ a m₁, x m = .ok a m₁ ∧ f a m₁ = .error halt m' := by
  cases hx : x m with
  | ok a m₁ =>
    rw [Eval.bind_ok f hx] at h
    exact .inr ⟨a, m₁, rfl, h⟩
  | error e m₁ =>
    change EStateM.bind x f m = _ at h
    rw [EStateM.bind, hx] at h
    cases h
    exact .inl rfl

theorem Eval.bind_error {x : Eval α} (f : α → Eval β) (h : x m = .error halt m') :
    (x >>= f) m = .error halt m' := by
  show EStateM.bind x f m = _
  rw [EStateM.bind, h]

end

namespace Ends

protected theorem pure (a : α) : Ends (pure a : Eval α) := nofun

/-- A step in two parts ends if both do. -/
protected theorem bind {x : Eval α} {f : α → Eval β} (hx : Ends x) (hf : ∀ a, Ends (f a)) :
    Ends (x >>= f) := by
  intro m halt m' h
  rcases Eval.bind_eq_error h with herror | ⟨a, m₁, -, herror⟩
  · exact hx m halt m' herror
  · exact hf a m₁ halt m' herror

theorem identity : Ends Eval.identity := nofun

theorem array (elements : List Value) : Ends (Eval.array elements) :=
  identity.bind fun _ => .pure _

theorem dict (pairs : Pairs) : Ends (Eval.dict pairs) :=
  identity.bind fun _ => .pure _

theorem float (x : Binary64) : Ends (Eval.float x) := by
  cases x with
  | nan payload => exact identity.bind fun _ => .pure _
  | _ => exact .pure _

theorem number (n : Number) : Ends (Eval.number n) := by
  cases n with
  | int n => exact .pure _
  | float x => exact .float x

theorem mapM {f : α → Eval β} (hf : ∀ a, Ends (f a)) (as : List α) : Ends (as.mapM f) := by
  induction as with
  | nil => exact .pure _
  | cons a as ih =>
    rw [List.mapM_cons]
    exact (hf a).bind fun _ => ih.bind fun _ => .pure _

end Ends

section

variable {m m' : Machine} {halt : Halt}

/-- A result that may be missing is passed on, or its lack halts. -/
theorem Eval.lift_eq_error_iff {lift : Except ε α → Eval α} {wrap : ε → Halt}
    {result : Except ε α} (hok : ∀ a m, lift (.ok a) m = .ok a m)
    (herror : ∀ e m, lift (.error e) m = .error (wrap e) m) :
    lift result m = .error halt m' ↔ m' = m ∧ ∃ e, halt = wrap e ∧ result = .error e := by
  cases result with
  | ok a =>
    rw [hok]
    exact iff_of_false nofun (by simp)
  | error e =>
    rw [herror]
    constructor
    · intro h
      cases h
      exact ⟨rfl, e, rfl, rfl⟩
    · rintro ⟨rfl, _, rfl, ⟨⟩⟩
      rfl

/-- A fault of the arithmetic halts, and leaves the machine as it is. -/
theorem Eval.arithmetic_eq_error_iff {result : Except Number.Fault α} :
    Eval.arithmetic result m = .error halt m' ↔
      m' = m ∧ ∃ fault, halt = .arithmetic fault ∧ result = .error fault :=
  lift_eq_error_iff (fun _ _ => rfl) fun _ _ => rfl

theorem Eval.written_eq_error_iff {result : Except Unprintable α} :
    Eval.written result m = .error halt m' ↔
      m' = m ∧ ∃ reason, halt = .unprintable reason ∧ result = .error reason :=
  lift_eq_error_iff (fun _ _ => rfl) fun _ _ => rfl

/-- What follows a step and always ends makes no difference to how the step halts. -/
theorem Eval.bind_eq_error_iff {x : Eval α} {f : α → Eval β} (hf : ∀ a, Ends (f a)) :
    (x >>= f) m = .error halt m' ↔ x m = .error halt m' := by
  refine ⟨fun h => ?_, Eval.bind_error f⟩
  rcases Eval.bind_eq_error h with herror | ⟨a, m₁, -, herror⟩
  · exact herror
  · exact absurd herror (hf a m₁ halt m')

/-- The number that is computed gets an identity, and this can not fail. -/
theorem Eval.computed_eq_error_iff {result : Except Number.Fault Number} :
    (Eval.arithmetic result >>= Eval.number) m = .error halt m' ↔
      m' = m ∧ ∃ fault, halt = .arithmetic fault ∧ result = .error fault := by
  rw [bind_eq_error_iff Ends.number, arithmetic_eq_error_iff]

/-! ## Operators -/

theorem applyPrefix_ends (operator : String) (v : Value) : Ends (applyPrefix operator v) := by
  unfold applyPrefix
  split
  · exact .pure _
  · split
    · exact .number _
    · exact .pure _
  · exact .pure _

/-- An operation on numbers halts with the fault of its arithmetic. -/
theorem applyNumeric_eq_error_iff {operator : String} {l r : Value} {a b : Number} :
    applyNumeric operator l r a b m = .error halt m' ↔
      m' = m ∧ ∃ fault, halt = .arithmetic fault ∧ Number.Fails operator a b fault := by
  unfold applyNumeric
  split
  · simp only [numericValue, Eval.computed_eq_error_iff, Number.add_eq_error_iff]
  · simp only [numericValue, Eval.computed_eq_error_iff, Number.sub_eq_error_iff]
  · simp only [numericValue, Eval.computed_eq_error_iff, Number.mul_eq_error_iff]
  · simp only [numericValue, Eval.computed_eq_error_iff, Number.div_eq_error_iff]
  · simp only [numericValue, Eval.computed_eq_error_iff, Number.mod_eq_error_iff]
  all_goals
    refine iff_of_false (Ends.pure _ m halt m') ?_
    rintro ⟨-, fault, -, hfails⟩
    cases hfails <;> simp_all

/-- Operators between other operands than two numbers end with a value, if only an error. -/
theorem applyInfix_ends {operator : String} {l r : Value}
    (h : l.number? = none ∨ r.number? = none) : Ends (applyInfix operator l r) := by
  unfold applyInfix
  split
  · next hl hr =>
    rw [hl, hr] at h
    simp at h
  · split <;> exact .pure _

/-- **An operator halts** only on two numbers, and with a fault of the arithmetic. -/
theorem applyInfix_eq_error_iff {operator : String} {l r : Value} :
    applyInfix operator l r m = .error halt m' ↔
      m' = m ∧ ∃ a b fault, l.number? = some a ∧ r.number? = some b ∧
        halt = .arithmetic fault ∧ Number.Fails operator a b fault := by
  cases hl : l.number? with
  | none => exact iff_of_false (applyInfix_ends (.inl hl) m halt m') (by simp)
  | some a =>
    cases hr : r.number? with
    | none => exact iff_of_false (applyInfix_ends (.inr hr) m halt m') (by simp)
    | some b =>
      rw [applyInfix_numbers operator hl hr, applyNumeric_eq_error_iff]
      simp

/-- Only a long integer can not be written out as a key. -/
theorem Value.not_fits_iff {v : Value} :
    ¬v.Fits ↔ ∃ n, v = .int n ∧ Nat.pow 10 Numeral.digitLimit ≤ n.natAbs := by
  unfold Fits
  push Not
  rfl

/-- An index halts in a dictionary only, and only as an integer with too many digits. -/
theorem applyIndex_eq_error_iff {l index : Value} :
    applyIndex l index m = .error halt m' ↔
      m' = m ∧ halt = .unprintable .tooManyDigits ∧
        ∃ i pairs n, l = .dict i pairs ∧ index = .int n ∧
          Nat.pow 10 Numeral.digitLimit ≤ n.natAbs := by
  cases l with
  | dict i pairs =>
    cases hhash : index.hashKey? with
    | none =>
      rw [applyIndex, entryAt, hhash]
      refine iff_of_false (Ends.pure _ m halt m') ?_
      rintro ⟨-, -, -, -, n, -, rfl, -⟩
      cases hhash
    | some hash =>
      obtain ⟨hfound, hhalts⟩ := applyIndex_dict hhash i pairs m
      by_cases hfits : index.Fits
      · rw [hfound hfits]
        refine iff_of_false (Ends.pure _ m halt m') ?_
        rintro ⟨-, -, -, -, n, -, hindex, hlong⟩
        exact Value.not_fits_iff.mpr ⟨n, hindex, hlong⟩ hfits
      · obtain ⟨n, hindex, hlong⟩ := Value.not_fits_iff.mp hfits
        rw [hhalts hfits]
        constructor
        · intro h
          cases h
          exact ⟨rfl, rfl, i, pairs, n, rfl, hindex, hlong⟩
        · rintro ⟨rfl, rfl, -⟩
          rfl
  | array i elements => cases index <;> exact iff_of_false (Ends.pure _ m halt m') (by simp)
  | _ => exact iff_of_false (Ends.pure _ m halt m') (by simp)

/-- So does a key when its pair is put into a dictionary. -/
theorem insertPair_eq_error_iff {key : Value} {hash : HashKey} (hhash : key.hashKey? = some hash)
    {pair : Value × Value} {pairs : Pairs} :
    insertPair hash pair pairs m = .error halt m' ↔
      m' = m ∧ halt = .unprintable .tooManyDigits ∧
        ∃ n, key = .int n ∧ Nat.pow 10 Numeral.digitLimit ≤ n.natAbs := by
  rw [← Value.not_fits_iff, insertPair, Eval.bind_eq_error_iff fun _ => .pure _,
    Eval.written_eq_error_iff]
  by_cases hfits : key.Fits
  · rw [hfits.usable hhash]
    simp [hfits]
  · rw [Value.usable_of_not_fits hfits hhash]
    simp [hfits]

/-! ## Built-in functions -/

/-- At the end of the input there is no line to read. -/
theorem Eval.readLine_of_empty (h : m.input = []) (prompt : String) :
    Eval.readLine prompt m =
      .error .endOfInput { m with output := m.output.push (.prompt prompt) } := by
  cases m
  cases h
  rfl

/-- A line is taken from the input. -/
theorem Eval.readLine_of_line {text : String} {behind : List Incoming}
    (h : m.input = .line text :: behind) (prompt : String) :
    Eval.readLine prompt m =
      .ok text { m with output := m.output.push (.prompt prompt), input := behind } := by
  cases m
  cases h
  rfl

/-- An interrupt is taken from the input, and there is no line. -/
theorem Eval.readLine_of_interrupt {behind : List Incoming} (h : m.input = .interrupt :: behind)
    (prompt : String) :
    Eval.readLine prompt m =
      .error .interrupted { m with output := m.output.push (.prompt prompt), input := behind } := by
  cases m
  cases h
  rfl

namespace Builtin

/-- A sum with a binary number is one, unless an integer has to be converted that is too large. -/
theorem add_mixed {a b : Number} (h : a.isFloat ∨ b.isFloat) :
    (a.TooLarge ∨ b.TooLarge → a.add b = .error .integerTooLarge) ∧
    (¬(a.TooLarge ∨ b.TooLarge) → ∃ x, a.add b = .ok (.float x)) := by
  have hadd : a.add b = Number.onFloats (fun x y => .ok (x.add y)) a b := by
    cases a with
    | float => rfl
    | int m =>
      cases b with
      | float => rfl
      | int n => simp [Number.isFloat] at h
  rw [hadd]
  refine ⟨Number.onFloats_of_tooLarge, fun hfits => ?_⟩
  obtain ⟨ha, hb⟩ := not_or.mp hfits
  obtain ⟨x, y, -, hsum⟩ := Number.onFloats_of_not_tooLarge (f := fun x y => .ok (x.add y)) ha hb
  exact ⟨x.add y, hsum⟩

theorem overflow_iff {P : Prop} (h : P) :
    (.error (.arithmetic .integerTooLarge) m : EStateM.Result Halt Machine Value) =
      .error halt m' ↔ m' = m ∧ halt = .arithmetic .integerTooLarge ∧ P := by
  simp [h, eq_comm, and_comm]

/-- A sum of binary numbers halts at an integer that can not be converted. -/
theorem sumFrom_float_eq_error_iff {x : Binary64} {vs : List Value} :
    sumFrom (.float x) vs m = .error halt m' ↔
      m' = m ∧ halt = .arithmetic .integerTooLarge ∧ HasLarge vs := by
  induction vs generalizing x with
  | nil =>
    refine iff_of_false (Ends.float x m halt m') ?_
    rintro ⟨-, -, earlier, n, later, hsplit, -⟩
    cases earlier <;> cases hsplit
  | cons v vs ih =>
    rw [hasLarge_cons]
    cases v with
    | int n =>
      obtain ⟨hhalts, hadds⟩ := add_mixed (a := .float x) (b := .int n) (.inl rfl)
      rw [sumFrom_cons rfl]
      by_cases hlarge : rangeEnd ≤ n.natAbs
      · rw [hhalts (.inr hlarge)]
        exact overflow_iff (.inl ⟨n, rfl, hlarge⟩)
      · obtain ⟨y, hy⟩ := hadds (not_or.mpr ⟨id, hlarge⟩)
        rw [hy]
        refine ih.trans ?_
        simp [hlarge, Value.number?]
    | float y =>
      rw [sumFrom_cons rfl]
      refine ih.trans ?_
      simp [Value.number?]
    | _ => exact iff_of_false (Ends.pure _ m halt m') (by simp [Value.number?])

/-- A sum of integers is exact, and converted at the first binary number. -/
theorem sumFrom_int_eq_error_iff {start : Int} {vs : List Value} :
    sumFrom (.int start) vs m = .error halt m' ↔
      m' = m ∧ halt = .arithmetic .integerTooLarge ∧ Overflows start vs := by
  induction vs generalizing start with
  | nil =>
    refine iff_of_false (Ends.pure _ m halt m') ?_
    rintro ⟨-, -, ns, x, later, hsplit, -⟩
    cases ns <;> cases hsplit
  | cons v vs ih =>
    cases v with
    | int n =>
      rw [sumFrom_cons rfl, overflows_int]
      exact ih
    | float y =>
      obtain ⟨hhalts, hadds⟩ := add_mixed (a := .int start) (b := .float y) (.inr rfl)
      rw [sumFrom_cons rfl, overflows_float]
      by_cases hlarge : rangeEnd ≤ start.natAbs
      · rw [hhalts (.inl hlarge)]
        exact overflow_iff (.inl hlarge)
      · obtain ⟨x, hx⟩ := hadds (not_or.mpr ⟨hlarge, id⟩)
        rw [hx]
        refine sumFrom_float_eq_error_iff.trans ?_
        simp [hlarge]
    | _ => exact iff_of_false (Ends.pure _ m halt m') fun h => not_overflows rfl h.2.2

theorem writeLines_cons_ok {v : Value} {text : String} (hv : v.inspect = .ok text)
    (vs : List Value) (m : Machine) :
    writeLines (v :: vs) m = writeLines vs { m with output := m.output.push (.line text) } := by
  rw [writeLines, hv]
  rfl

theorem writeLines_cons_error {v : Value} {reason : Unprintable} (hv : v.inspect = .error reason)
    (vs : List Value) (m : Machine) : writeLines (v :: vs) m = .error (.unprintable reason) m := by
  rw [writeLines, hv]
  rfl

/-- What has a text is printed, up to the first value that has none. -/
theorem writeLines_append {earlier : List Value} {texts : List String}
    (h : Value.inspectAll earlier = .ok texts) (later : List Value) (m : Machine) :
    writeLines (earlier ++ later) m =
      writeLines later { m with output := m.output ++ (texts.map Piece.line).toArray } := by
  induction earlier generalizing texts m with
  | nil =>
    cases h
    simp
  | cons v earlier ih =>
    rw [Value.inspectAll] at h
    cases hv : v.inspect with
    | error =>
      rw [hv] at h
      cases h
    | ok text =>
      cases hmore : Value.inspectAll earlier with
      | error =>
        rw [hv, hmore] at h
        cases h
      | ok more =>
        rw [hv, hmore] at h
        cases h
        rw [List.cons_append, writeLines_cons_ok hv, ih hmore]
        simp

/-- Values are written one after the other, so the ones in front of the first that hides are
written. -/
theorem exists_of_writeLines {vs : List Value} (h : writeLines vs m = .error halt m') :
    ∃ earlier v later texts reason, vs = earlier ++ v :: later ∧
      Value.inspectAll earlier = .ok texts ∧ v.Hides reason ∧ halt = .unprintable reason ∧
      m' = { m with output := m.output ++ (texts.map Piece.line).toArray } := by
  induction vs generalizing m with
  | nil => cases h
  | cons v vs ih =>
    cases hv : v.inspect with
    | error reason =>
      rw [writeLines_cons_error hv] at h
      cases h
      exact ⟨[], v, vs, [], reason, rfl, rfl, Value.inspect_eq_error_iff.mp hv, rfl, by simp⟩
    | ok text =>
      rw [writeLines_cons_ok hv] at h
      obtain ⟨earlier, w, later, texts, reason, rfl, hshown, hides, rfl, rfl⟩ := ih h
      refine ⟨v :: earlier, w, later, text :: texts, reason, rfl, ?_, hides, rfl, by simp⟩
      rw [Value.inspectAll, hv, hshown]
      rfl

/-- `gets` asks for a line with its argument, or without a text. -/
theorem readString_of_prompt {vs : List Value} {prompt : String} (h : prompt? vs = some prompt) :
    readString vs = (do return .str (← Eval.readLine prompt)) := by
  rcases vs with _ | ⟨v, _ | ⟨w, vs⟩⟩
  · cases h
    rfl
  · cases v with
    | str text =>
      cases h
      rfl
    | _ => cases h
  · cases v <;> cases h

theorem call_gets {vs : List Value} {prompt : String} (h : prompt? vs = some prompt) :
    gets.call vs = (do return .str (← Eval.readLine prompt)) := by
  have haccepts : gets.arity.accepts vs.length := by
    rcases vs with _ | ⟨v, _ | ⟨w, vs⟩⟩
    · rfl
    · rfl
    · cases v <;> cases h
  rw [call, if_pos haccepts, apply, readString_of_prompt h]

/-- `gets` halts where no line can be read. -/
theorem fails_of_readString {vs : List Value} {prompt : String} (hprompt : prompt? vs = some prompt)
    (h : readString vs m = .error halt m') : Fails .gets vs m halt m' := by
  rw [readString_of_prompt hprompt, Eval.bind_eq_error_iff fun _ => .pure _] at h
  cases hinput : m.input with
  | nil =>
    rw [Eval.readLine_of_empty hinput] at h
    cases h
    exact .endOfInput hprompt hinput
  | cons event behind =>
    cases event with
    | line text =>
      rw [Eval.readLine_of_line hinput] at h
      cases h
    | interrupt =>
      rw [Eval.readLine_of_interrupt hinput] at h
      cases h
      exact .interrupted hprompt hinput

/-- A call of a built-in function halts in each of the cases. -/
theorem Fails.call_eq {b : Builtin} {vs : List Value} (h : Fails b vs m halt m') :
    b.call vs m = .error halt m' := by
  cases h with
  | exit => rfl
  | puts shown hides =>
    refine Eval.bind_error _ ?_
    rw [writeLines_append shown, writeLines_cons_error hides.inspect_eq]
  | endOfInput asked empty =>
    rw [call_gets asked]
    exact Eval.bind_error _ (Eval.readLine_of_empty empty _)
  | interrupted asked pressed =>
    rw [call_gets asked]
    exact Eval.bind_error _ (Eval.readLine_of_interrupt pressed _)
  | int => rfl
  | float large =>
    refine Eval.bind_error _ ?_
    rw [Number.floatOfInt_eq, if_pos large]
    rfl
  | str hides =>
    refine Eval.bind_error _ ?_
    rw [hides.inspect_eq]
    rfl
  | sumarr large => exact sumFrom_int_eq_error_iff.mpr ⟨rfl, rfl, large⟩

theorem zipped_ends (vs : List Value) : Ends (zipped vs) := by
  unfold zipped
  split
  · exact .pure _
  · exact .array _
  · exact (Ends.mapM Ends.array _).bind Ends.array

theorem absolute_ends (v : Value) : Ends (absolute v) := by
  unfold absolute
  split
  · exact .number _
  · exact .pure _

/-- `int` halts on the infinities only. -/
theorem fails_of_toInteger {v : Value} (h : toInteger v m = .error halt m') :
    Fails .int [v] m halt m' := by
  cases v with
  | float x =>
    cases x with
    | infinite negative =>
      cases h
      exact .int
    | finite | nan => cases h
  | _ => cases h

/-- `float` halts on integers that are too large only. -/
theorem fails_of_toBinary {v : Value} (h : toBinary v m = .error halt m') :
    Fails .float [v] m halt m' := by
  cases v with
  | int n =>
    rw [toBinary, Eval.bind_eq_error_iff Ends.float, Eval.arithmetic_eq_error_iff,
      Number.floatOfInt_eq] at h
    obtain ⟨rfl, fault, rfl, herror⟩ := h
    split at herror
    · next hlarge =>
      cases herror
      exact .float hlarge
    · cases herror
  | str s =>
    have hends : Ends (toBinary (.str s)) := by
      rw [toBinary]
      split
      · exact .float _
      · exact .pure _
    exact absurd h (hends m halt m')
  | _ => cases h

/-- A built-in function of one argument halts in no other case. -/
theorem fails_of_apply_one {b : Builtin} {v : Value} (hone : b.arity = .exactly 1)
    (h : b.apply [v] m = .error halt m') : Fails b [v] m halt m' := by
  cases b with
  | int => exact fails_of_toInteger h
  | float => exact fails_of_toBinary h
  | str =>
    rw [apply, Eval.bind_eq_error_iff fun _ => .pure _, Eval.written_eq_error_iff] at h
    obtain ⟨rfl, reason, rfl, hreason⟩ := h
    exact .str (Value.inspect_eq_error_iff.mp hreason)
  | abs => exact absurd h (absolute_ends v m halt m')
  | rest =>
    cases v with
    | array i elements =>
      cases elements with
      | nil => cases h
      | cons => exact absurd h (Ends.array _ m halt m')
    | _ => cases h
  | sumarr =>
    cases v with
    | array i elements =>
      obtain ⟨rfl, rfl, hlarge⟩ := sumFrom_int_eq_error_iff.mp h
      exact .sumarr hlarge
    | _ => cases h
  | len | type | first | last => cases h
  | exit | puts | gets | help | zip | push => cases hone

/-- `gets` halts only where it is asked for a line. -/
theorem fails_of_gets {vs : List Value} (haccepts : gets.arity.accepts vs.length)
    (h : readString vs m = .error halt m') : Fails .gets vs m halt m' := by
  cases hprompt : prompt? vs with
  | some prompt => exact fails_of_readString hprompt h
  | none =>
    rcases vs with _ | ⟨v, _ | ⟨w, vs⟩⟩
    · cases hprompt
    · cases v with
      | str => cases hprompt
      | _ => cases h
    · simp [arity, Arity.accepts] at haccepts

/-- A call of a built-in function halts in no other case. -/
theorem fails_of_call {b : Builtin} {vs : List Value} (h : b.call vs m = .error halt m') :
    Fails b vs m halt m' := by
  rw [call] at h
  by_cases haccepts : b.arity.accepts vs.length
  · rw [if_pos haccepts] at h
    by_cases hone : b.arity = .exactly 1
    · rw [hone] at haccepts
      obtain ⟨v, rfl⟩ := List.length_eq_one_iff.mp (of_decide_eq_true haccepts)
      exact fails_of_apply_one hone h
    cases b with
    | exit =>
      obtain rfl : vs = [] := List.length_eq_zero_iff.mp (of_decide_eq_true haccepts)
      cases h
      exact .exit
    | puts =>
      rw [apply, Eval.bind_eq_error_iff fun _ => .pure _] at h
      obtain ⟨earlier, v, later, texts, reason, rfl, hshown, hides, rfl, rfl⟩ :=
        exists_of_writeLines h
      exact .puts hshown hides
    | gets => exact fails_of_gets haccepts h
    | help => cases vs <;> cases h
    | zip => exact absurd h (zipped_ends vs m halt m')
    | push =>
      obtain ⟨v, w, rfl⟩ := List.length_eq_two.mp (of_decide_eq_true haccepts)
      cases v with
      | array => exact absurd h (Ends.array _ m halt m')
      | _ => cases h
    | _ => exact absurd rfl hone
  · rw [if_neg haccepts] at h
    cases h

end Builtin

end

end Monkey
