import Mathlib
import Monkey.Proofs.Lacking

/-!
# Evaluations that halt

An evaluation halts exactly if it comes to an operation that halts, through whatever blocks, loops
and calls, and it halts then and there (`evaluate_eq_error_iff`). The operations are listed by
`Strikes`, with the operands for which they halt.

So an evaluation answers, unless it is stopped on purpose, by a limit or at the end of its input,
exactly if it comes to no operation that has no value for its operands, and is not interrupted
(`answers_iff`).
-/

namespace Monkey

/-- Whether a halt cuts an evaluation off, by an operation that has no value or by an interrupt. The
other halts are wanted by the program, or caused by a limit or by the end of the input. -/
def Halt.isAbrupt : Halt → Bool
  | arithmetic _ | unprintable _ | interrupted => true
  | exit | endOfInput | tooDeep | endless => false

/-- An activity halts by itself, with the depth that is left for it. -/
inductive Strikes : Nat → Activity → Machine → Halt → Machine → Prop where
  | tooDeep : Strikes 0 (.node part scope) m .tooDeep m
  | node (inside : StrikesIn (evaluate d) scope part m halt m') :
      Strikes (d + 1) (.node part scope) m halt m'
  | builtin (fails : b.Fails vs m halt m') : Strikes d (.call (.builtin b) vs) m halt m'

/-! ## The operations halt -/

section

variable {run : Evaluator} {scope : Nat} {node : Node} {m m' : Machine} {halt : Halt}

theorem not_isError_of_number? {v : Value} {n : Number} (h : v.number? = some n) :
    ¬isError (some v) := by
  cases v with
  | error => cases h
  | _ => exact Bool.false_ne_true

/-- What is computed halts exactly as the computation does. -/
theorem map_some_eq_error_iff {x : Eval Value} :
    (some <$> x) m = .error halt m' ↔ x m = .error halt m' := by
  rw [map_eq_pure_bind]
  exact Eval.bind_eq_error_iff fun _ => .pure _

/-- The listed operations do halt, and leave the machine that is listed with them. -/
theorem StrikesIn.evaluateWith_eq (h : StrikesIn run scope node m halt m') :
    evaluateWith run node scope m = .error halt m' := by
  cases h with
  | endless rounds => exact repeatRounds_of_rounds rounds 0
  | infixOp left right leftNumber rightNumber fails =>
    rw [evaluateWith, withValue_ok _ left (not_isError_of_number? leftNumber),
      withValue_ok _ right (not_isError_of_number? rightNumber), map_some_eq_error_iff,
      applyInfix_eq_error_iff]
    exact ⟨rfl, _, _, _, leftNumber, rightNumber, rfl, fails⟩
  | index left index long =>
    rw [evaluateWith, withValue_ok _ left Bool.false_ne_true,
      withValue_ok _ index Bool.false_ne_true, map_some_eq_error_iff, applyIndex_eq_error_iff]
    exact ⟨rfl, rfl, _, _, _, rfl, rfl, long⟩
  | entry before key value usable long =>
    rw [evaluateWith, withPairs_of_files before, withPairs, withValue_ok _ key Bool.false_ne_true]
    show withValue _ _ _ = _
    rw [withValue_ok _ value usable]
    have hhash {n : Int} : (Value.int n).hashKey? = some (.int n) := rfl
    exact Eval.bind_error _ ((insertPair_eq_error_iff hhash).mpr ⟨rfl, rfl, _, rfl, long⟩)

theorem Strikes.perform_eq {d : Nat} {activity : Activity} (h : Strikes d activity m halt m') :
    activity.perform (evaluate d) m = .error halt m' := by
  cases h with
  | tooDeep => rfl
  | node inside => exact inside.evaluateWith_eq
  | builtin fails => exact Eval.bind_error _ fails.call_eq

end

/-! ## Evaluations -/

/-- The evaluation of a node comes to an operation that halts, which leaves the machine `m'`. -/
def Founders (depth : Nat) (node : Node) (scope : Nat) (m : Machine) (halt : Halt) (m' : Machine) :
    Prop :=
  ∃ around d activity m₁, Nested depth (.node node scope) m around d activity m₁ ∧
    Strikes d activity m₁ halt m'

/-- An operation that a part comes to is one that the node comes to. -/
theorem Founders.of_nested {depth d scope scope' : Nat} {node part : Node} {m m₁ m' : Machine}
    {halt : Halt} {around : List (Nat × Pending)}
    (hnested : Nested depth (.node node scope) m around d (.node part scope') m₁)
    (h : Founders d part scope' m₁ halt m') : Founders depth node scope m halt m' := by
  obtain ⟨inside, d', activity, m₂, hinner, hstrikes⟩ := h
  exact ⟨_, d', activity, m₂, hnested.trans hinner, hstrikes⟩

/-- **An evaluation halts exactly if it comes to an operation that halts.** -/
theorem evaluate_eq_error_iff {depth scope : Nat} {node : Node} {m m' : Machine} {halt : Halt} :
    evaluate depth node scope m = .error halt m' ↔ Founders depth node scope m halt m' := by
  constructor
  · intro h
    induction depth generalizing node scope m with
    | zero =>
      cases h
      exact ⟨[], 0, _, _, .self, .tooDeep⟩
    | succ depth ih =>
      cases evaluateWith_lacking .halted h with
      | strikes hstrikes => exact ⟨[], depth + 1, _, m, .self, .node hstrikes⟩
      | @halted _ activity m₁ _ _ hperforms herror =>
        cases activity with
        | node part scope' => exact (ih herror).of_nested (.part .self hperforms)
        | call f vs =>
          rcases applyFunction_lacking .halted herror with ⟨b, _, _, rfl, hsame, hfails⟩ |
            ⟨i, parameters, body, s, bindings, rfl, hbind, hbody⟩
          · cases hsame
            exact ⟨_, depth, _, m₁, .part .self hperforms, .builtin hfails⟩
          · exact (ih hbody).of_nested (.body (.part .self hperforms) hbind)
  · rintro ⟨around, d, activity, m₁, hnested, hstrikes⟩
    exact (perform_of_nested hnested).trans (Eval.bind_error _ hstrikes.perform_eq)

/-- The evaluation of a node gives a result, or it is stopped by the program itself, by a limit or at
the end of the input. -/
def Answers (depth : Nat) (node : Node) (scope : Nat) (m : Machine) : Prop :=
  (∃ result m', evaluate depth node scope m = .ok result m') ∨
    ∃ halt m', evaluate depth node scope m = .error halt m' ∧ ¬halt.isAbrupt

theorem not_answers_of_isAbrupt {depth scope : Nat} {node : Node} {m m' : Machine} {halt : Halt}
    (h : evaluate depth node scope m = .error halt m') (habrupt : halt.isAbrupt) :
    ¬Answers depth node scope m := by
  rintro (⟨result, m₁, hok⟩ | ⟨halt', m₁, herror, hnot⟩)
  · rw [hok] at h
    cases h
  · rw [herror] at h
    cases h
    exact hnot habrupt

/-- **An evaluation answers exactly if it comes to no operation without a value and to no
interrupt.** -/
theorem answers_iff (depth : Nat) (node : Node) (scope : Nat) (m : Machine) :
    Answers depth node scope m ↔
      ¬∃ halt m', halt.isAbrupt ∧ Founders depth node scope m halt m' := by
  constructor
  · rintro hanswers ⟨halt, m', habrupt, hfounders⟩
    exact not_answers_of_isAbrupt (evaluate_eq_error_iff.mpr hfounders) habrupt hanswers
  · intro hnone
    cases h : evaluate depth node scope m with
    | ok result m' => exact .inl ⟨result, m', h⟩
    | error halt m' =>
      refine .inr ⟨halt, m', h, fun habrupt => hnone ⟨halt, m', habrupt, ?_⟩⟩
      exact evaluate_eq_error_iff.mp h

/-- The program `{"a": 7 % 3}["a"]`. -/
def takesRemainder : Parsed := parse "\x7b\"a\": 7 % 3\x7d[\"a\"]"

/-- The program `fn(x) { 1 / x }(0)`. -/
def dividesInCall : Parsed := parse "fn(x) { 1 / x }(0)"

/-- The one program answers, so it comes to no such operation; the other one comes to a division by
zero. -/
theorem answers_iff_takesRemainder :
    Answers 20 takesRemainder.tree Machine.globalScope (.start []) ∧
    (¬∃ halt m', halt.isAbrupt ∧
      Founders 20 takesRemainder.tree Machine.globalScope (.start []) halt m') ∧
    ∃ halt m', halt.isAbrupt ∧
      Founders 20 dividesInCall.tree Machine.globalScope (.start []) halt m' := by
  obtain ⟨hremainder, hdivision⟩ :
      evaluate 20 takesRemainder.tree Machine.globalScope (.start []) = .ok (some (.int 1))
        ((evaluate 20 takesRemainder.tree Machine.globalScope).after (.start [])) ∧
      evaluate 20 dividesInCall.tree Machine.globalScope (.start []) =
        .error (.arithmetic .divisionByZero)
          ((evaluate 20 dividesInCall.tree Machine.globalScope).after (.start [])) := by
    refine ⟨?_, ?_⟩
    all_goals cbv
  have hanswers : Answers 20 takesRemainder.tree Machine.globalScope (.start []) :=
    .inl ⟨_, _, hremainder⟩
  refine ⟨hanswers, (answers_iff _ _ _ _).mp hanswers, ?_⟩
  exact not_not.mp (mt (answers_iff _ _ _ _).mpr (not_answers_of_isAbrupt hdivision rfl))

/-- The program `int(float("inf"))`. -/
def convertsInfinity : Parsed := parse "int(float(\"inf\"))"

/-- It is read without an error, and does not answer. -/
theorem not_answers_convertsInfinity :
    convertsInfinity.errors = [] ∧
    ¬Answers 20 convertsInfinity.tree Machine.globalScope (.start []) := by
  obtain ⟨herrors, hhalts⟩ : convertsInfinity.errors = [] ∧
      evaluate 20 convertsInfinity.tree Machine.globalScope (.start []) =
        .error (.arithmetic .infinityToInteger) (.start []) := by
    refine ⟨?_, ?_⟩
    all_goals cbv
  exact ⟨herrors, not_answers_of_isAbrupt hhalts rfl⟩

end Monkey
