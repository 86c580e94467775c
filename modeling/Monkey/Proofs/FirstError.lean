import Mathlib
import Monkey.Proofs.Nesting

/-!
# The first error ends the evaluation

An error that a nested activity gives, be it the evaluation of an operand, condition, argument,
element or loop body, or the call of a function, is the result of the whole evaluation, and the
machine is left as it was when the error arose. That nothing more is evaluated is said for every
evaluator that could take up what is still to be done: it is not asked.
-/

namespace Monkey

/-- Every construct passes an error on and evaluates nothing. -/
theorem Pending.resume_error (pending : Pending) (run : Evaluator) (e : RuntimeError) :
    pending.resume run (some (.error e)) = pure (some (.error e)) := by
  cases pending with
  | frame scope inner => cases inner <;> rfl
  | call | body | program | round | value => rfl

theorem resumeAround_error (runs : Nat → Evaluator) (around : List (Nat × Pending))
    (e : RuntimeError) : resumeAround runs around (some (.error e)) = pure (some (.error e)) := by
  induction around with
  | nil => rfl
  | cons entry around ih =>
    obtain ⟨d, pending⟩ := entry
    rw [resumeAround, pending.resume_error, pure_bind, ih]

/-- **The first error wins.** If an activity that is nested in the evaluation of a node gives an
error, the evaluation gives that error and leaves the machine as it is at that moment. Whatever
evaluators were to go on from there, what is still to be done around the activity calls none of
them. -/
theorem evaluate_of_nested_error {depth d scope : Nat} {node : Node} {activity : Activity}
    {m m₁ m₂ : Machine} {around : List (Nat × Pending)} {e : RuntimeError}
    (hnested : Nested depth (.node node scope) m around d activity m₁)
    (herror : activity.perform (evaluate d) m₁ = .ok (some (.error e)) m₂) :
    evaluate depth node scope m = .ok (some (.error e)) m₂ ∧
    ∀ runs, resumeAround runs around (some (.error e)) = pure (some (.error e)) := by
  refine ⟨?_, fun runs => resumeAround_error runs around e⟩
  have hcut : evaluate depth node scope m = _ := perform_of_nested hnested
  rw [hcut, Eval.bind_ok _ herror, resumeAround_error]
  rfl

/-! ## An error in a function -/

/-- The text `puts(s)` as a statement. -/
def putsText (s : String) : Node :=
  .statement ⟨.ident, "puts"⟩ (.call ⟨.lparen, "("⟩ (.identifier ⟨⟨.ident, "puts"⟩, "puts"⟩)
    [.string ⟨.string, s⟩ s])

/-- The expression `-x`. -/
def negated : Node := .prefixOp ⟨.minus, "-"⟩ "-" (.identifier ⟨⟨.ident, "x"⟩, "x"⟩)

/-- The function `fn(x) { puts("a"); -x; puts("b") }`. -/
def failing : Value :=
  .function 0 [⟨⟨.ident, "x"⟩, "x"⟩] (.block ⟨.lbrace, "\x7b"⟩
    [putsText "a", .statement ⟨.minus, "-"⟩ negated, putsText "b"]) 0

/-- The call `f(true)`. -/
def failingCall : Node :=
  .call ⟨.lparen, "("⟩ (.identifier ⟨⟨.ident, "f"⟩, "f"⟩) [.boolean ⟨.trueWord, "true"⟩ true]

/-- The program `let y = [1, f(true)]; puts("c")`. -/
def failingProgram : Node :=
  .program [.letBinding ⟨.letWord, "let"⟩ ⟨⟨.ident, "y"⟩, "y"⟩
    (.array ⟨.lbracket, "["⟩ [.integer ⟨.int, "1"⟩ 1, failingCall]), putsText "c"]

/-- The error of `-x` ends the call, the array, the binding and the program: of the three texts only
the first is printed, and `y` is not bound. -/
theorem evaluate_failingProgram :
    let f : Binding := ⟨"f", false, failing⟩
    let x : Binding := ⟨"x", false, .bool true⟩
    let m : Machine := ⟨#[⟨none, [f]⟩], 1, [], #[]⟩
    let m' : Machine := ⟨#[⟨none, [f]⟩, ⟨some 0, [x]⟩], 1, [], #[.line "a"]⟩
    (∃ around, Nested 9 (.node failingProgram 0) m around 3 (.node negated 1) m') ∧
    evaluate 9 failingProgram 0 m = .ok (some (.error (.unknownPrefix "-" .boolean))) m' := by
  intro f x m m'
  have hlookup : evaluate 5 (.identifier ⟨⟨.ident, "f"⟩, "f"⟩) 0 m = .ok (some failing) m := by cbv
  have hputs : evaluate 4 (putsText "a") 1 ⟨#[⟨none, [f]⟩, ⟨some 0, [x]⟩], 1, [], #[]⟩ =
      .ok (some .null) m' := by cbv
  have hnegated : evaluate 3 negated 1 m' =
      .ok (some (.error (.unknownPrefix "-" .boolean))) m' := by cbv
  have hself : Nested 9 (.node failingProgram 0) m [] 9 (.node failingProgram 0) m := .self
  have harray := (hself.part (.program .nil)).part (.letBinding rfl)
  have hcall := (harray.part (.element (.cons rfl (by decide) .nil))).part
    (.call hlookup (by decide) (.cons rfl (by decide) .nil))
  have hnested := ((hcall.body rfl).part (.inside (.block (.cons hputs (by decide) .nil)))).part
    (.inside .content)
  exact ⟨⟨_, hnested⟩, (evaluate_of_nested_error hnested hnegated).1⟩

end Monkey
