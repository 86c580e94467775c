import Mathlib
import Monkey.Proofs.Constants
import Monkey.Proofs.Lacking

/-!
# Evaluations without a value

A statement that sets a name does so with the value of its expression. If the expression gives no
value, the statement does nothing and says nothing about it. This can happen although it is an
expression, since a block can end with a binding, an assignment or a loop, or have no statements at
all.

Everything else hands on the lack of a value and never makes one up. So an evaluation gives no value
exactly if it trails off in a silent node (`evaluate_eq_none_iff`): it comes to such a node, and
everything around it, through branches, blocks, operands, arguments and calls, hands the lack of a
value on.

`binds_unless_trailsOff` says what follows for statements that set a name: unless the evaluation of
the expression trails off, the scope binds the name to the value of the expression.
-/

namespace Monkey

/-- The evaluation of a node comes to a silent node that gives no value, and everything around that
hands the lack of a value on. The machine `m'` is the one that the silent node leaves. -/
def TrailsOff (depth : Nat) (node : Node) (scope : Nat) (m m' : Machine) : Prop :=
  ∃ around d part scope' m₁, Nested depth (.node node scope) m around d (.node part scope') m₁ ∧
    (∀ pending ∈ around, pending.2.handsOn) ∧ part.isSilent ∧
    evaluate d part scope' m₁ = .ok none m'

/-! ## The lack of a value is handed on -/

section

variable {run : Evaluator} {scope depth d : Nat} {node part : Node} {m m₁ m' : Machine}

/-- What hands the lack of a value on does nothing else. -/
theorem Pending.resume_none {pending : Pending} (h : pending.handsOn) (run : Evaluator)
    (m : Machine) : pending.resume run none m = .ok none m := by
  cases pending with
  | call | body | value => rfl
  | frame scope inner =>
    cases inner with
    | content | branch => rfl
    | block later =>
      obtain rfl := List.isEmpty_iff.mp h
      rfl
    | round => cases h
  | program scope later =>
    obtain rfl := List.isEmpty_iff.mp h
    rfl
  | round => cases h

theorem resumeAround_none {around : List (Nat × Pending)}
    (h : ∀ pending ∈ around, pending.2.handsOn) (m : Machine) :
    resumeAround evaluate around none m = .ok none m := by
  induction around with
  | nil => rfl
  | cons pending around ih =>
    obtain ⟨hfirst, hrest⟩ := List.forall_mem_cons.mp h
    rw [resumeAround, Eval.bind_ok _ (Pending.resume_none hfirst _ m), ih hrest]

/-- The silent node gives no value, and all that is around it hands that on. -/
theorem TrailsOff.evaluate_eq (h : TrailsOff depth node scope m m') :
    evaluate depth node scope m = .ok none m' := by
  obtain ⟨around, d, part, scope', m₁, hnested, haround, -, hpart⟩ := h
  refine (perform_of_nested hnested).trans ?_
  rw [Activity.perform, Eval.bind_ok _ hpart, resumeAround_none haround]

/-- What trails off in a part does so itself, if everything around the part hands on. -/
theorem TrailsOff.of_nested {around : List (Nat × Pending)} {scope' : Nat}
    (hnested : Nested depth (.node node scope) m around d (.node part scope') m₁)
    (haround : ∀ pending ∈ around, pending.2.handsOn) (h : TrailsOff d part scope' m₁ m') :
    TrailsOff depth node scope m m' := by
  obtain ⟨inside, d', part', scope'', m₂, hinner, hinside, hsilent, hpart⟩ := h
  refine ⟨inside ++ around, d', part', scope'', m₂, hnested.trans hinner, ?_, hsilent, hpart⟩
  exact List.forall_mem_append.mpr ⟨hinside, haround⟩

end

/-- **An evaluation gives no value exactly if it trails off in a silent node.** -/
theorem evaluate_eq_none_iff {depth scope : Nat} {node : Node} {m m' : Machine} :
    evaluate depth node scope m = .ok none m' ↔ TrailsOff depth node scope m m' := by
  refine ⟨fun h => ?_, TrailsOff.evaluate_eq⟩
  induction depth generalizing node scope m with
  | zero => cases h
  | succ depth ih =>
    cases evaluateWith_lacking .silent h with
    | silent hsilent =>
      exact ⟨[], depth + 1, node, scope, m, .self, List.forall_mem_nil _, hsilent, h⟩
    -- the part or the body trails off, and what is around it hands on
    | @handed _ activity _ _ hperforms hands hnone =>
      cases activity with
      | node part scope' => exact (ih hnone).of_nested (.part .self hperforms) (by simpa using hands)
      | call f vs =>
        rcases applyFunction_lacking .silent hnone with ⟨_, _, _, _, hsame, _⟩ |
          ⟨i, parameters, body, s, bindings, rfl, hbind, hbody⟩
        · cases hsame
        · refine (ih hbody).of_nested (.body (.part .self hperforms) hbind) ?_
          exact List.forall_mem_cons.mpr ⟨rfl, by simpa using hands⟩

/-! ## Names that are set -/

/-- Whether a statement makes the name that it sets a constant. -/
def Setting.constant : Setting → Bool
  | declare constant .. => constant
  | assign .. => false

theorem Scope.find?_declare (b : Binding) (s : Scope) : (s.declare b).find? b.name = some b := by
  obtain ⟨_, bindings⟩ := s
  simp only [find?, declare]
  induction bindings with
  | nil => simp [put]
  | cons first rest ih =>
    rw [put]
    split
    · simp
    · next hfirst => simp [hfirst, ih]

theorem Machine.binding?_declare {m : Machine} {scope : Nat} (h : scope < m.scopes.size)
    (b : Binding) : (m.declare scope b).binding? scope b.name = some b := by
  rw [binding?, declare, Array.getElem?_modify, if_pos rfl, Array.getElem?_eq_getElem h]
  exact Scope.find?_declare b _

/-- A name that is set without an error is bound to the value. -/
theorem Setting.apply_eq_ok {setting : Setting} {scope : Nat} {v : Value} {result : Option Value}
    {m m' : Machine} (h : setting.apply scope v m = .ok result m') (hresult : ¬isError result) :
    result = none ∧ m' = m.declare scope ⟨setting.name, setting.constant, v⟩ := by
  cases setting with
  | declare constant name e =>
    cases h
    exact ⟨rfl, rfl⟩
  | assign name e =>
    obtain ⟨assigned, m₁, hassign, hrest⟩ := Eval.bind_eq_ok h
    have hassigned : m.assign scope name v = (assigned, m₁) := by
      injection hassign with hfirst hsecond
      exact Prod.ext hfirst hsecond
    rw [Machine.assign] at hassigned
    split at hassigned
    · cases hassigned
      cases hrest
      exact absurd rfl hresult
    · split at hassigned
      · cases hassigned
        cases hrest
        exact absurd rfl hresult
      · cases hassigned
        cases hrest
        exact ⟨rfl, rfl⟩

/-- Scopes are only added. -/
theorem size_le_of_evaluate {depth scope : Nat} {node : Node} {m m' : Machine}
    {result : Option Value} (h : evaluate depth node scope m = .ok result m') :
    m.scopes.size ≤ m'.scopes.size := by
  have hkeeps := Keeps.evaluate depth node scope m
  rw [Eval.after, h] at hkeeps
  exact hkeeps.size

/-- **A statement that sets a name binds it, unless its expression trails off.** If the statement
ends without an error, then either the expression has given a value and the scope itself binds the
name to it, or the evaluation of the expression has trailed off and the statement has done nothing
else. -/
theorem binds_unless_trailsOff {d scope : Nat} {s : Node} {setting : Setting} {m m' : Machine}
    {result : Option Value} (hsetting : s.setting? = some setting)
    (hexpression : setting.value.isExpression) (hscope : scope < m.scopes.size)
    (h : evaluate (d + 1) s scope m = .ok result m') (hresult : ¬isError result) :
    result = none ∧
    ((¬∃ m₁, TrailsOff d setting.value scope m m₁) →
      ∃ v m₁, evaluate d setting.value scope m = .ok (some v) m₁ ∧
        m' = m₁.declare scope ⟨setting.name, setting.constant, v⟩ ∧
        m'.binding? scope setting.name = some ⟨setting.name, setting.constant, v⟩) ∧
    ((∃ m₁, TrailsOff d setting.value scope m m₁) →
      evaluate d setting.value scope m = .ok none m' ∧ TrailsOff d setting.value scope m m') := by
  rw [evaluate, evaluateWith_of_setting? _ _ hsetting, withBound, if_pos hexpression] at h
  obtain ⟨r, m₁, hvalue, hrest⟩ := Eval.bind_eq_ok h
  cases r with
  | none =>
    cases hrest
    have htrails := evaluate_eq_none_iff.mp hvalue
    exact ⟨rfl, fun hnot => absurd ⟨_, htrails⟩ hnot, fun _ => ⟨hvalue, htrails⟩⟩
  | some v =>
    have happly : setting.apply scope v m₁ = .ok result m' := by
      cases v with
      | error e =>
        cases hrest
        exact absurd rfl hresult
      | _ => exact hrest
    obtain ⟨rfl, rfl⟩ := Setting.apply_eq_ok happly hresult
    have hscope₁ : scope < m₁.scopes.size := Nat.lt_of_lt_of_le hscope (size_le_of_evaluate hvalue)
    refine ⟨rfl, fun _ => ⟨v, m₁, hvalue, rfl, Machine.binding?_declare hscope₁ _⟩, ?_⟩
    rintro ⟨m₂, htrails⟩
    rw [htrails.evaluate_eq] at hvalue
    cases hvalue

/-- The expression `fn(n) { if (n) { n } }(true)`. -/
def givesArgument : Node :=
  let n : Name := ⟨⟨.ident, "n"⟩, "n"⟩
  .call ⟨.lparen, "("⟩
    (.function ⟨.function, "fn"⟩ [n] (.block ⟨.lbrace, "\x7b"⟩
      [.statement ⟨.ifWord, "if"⟩ (.ifThen ⟨.ifWord, "if"⟩ (.identifier n)
        (.block ⟨.lbrace, "\x7b"⟩ [.statement ⟨.ident, "n"⟩ (.identifier n)]))]))
    [.boolean ⟨.trueWord, "true"⟩ true]

/-- The statement `const x = fn(n) { if (n) { n } }(true);`. -/
def bindsArgument : Node := .constBinding ⟨.constWord, "const"⟩ ⟨⟨.ident, "x"⟩, "x"⟩ givesArgument

/-- The value comes out of a branch and a call, and the constant is bound to it. -/
theorem binds_unless_trailsOff_bindsArgument :
    (¬∃ m₁, TrailsOff 9 givesArgument 0 (.start []) m₁) ∧
    ∃ m', evaluate 10 bindsArgument 0 (.start []) = .ok none m' ∧
      m'.binding? 0 "x" = some ⟨"x", true, .bool true⟩ := by
  obtain ⟨hvalue, hstatement⟩ :
      evaluate 9 givesArgument 0 (.start []) = .ok (some (.bool true))
        ((evaluate 9 givesArgument 0).after (.start [])) ∧
      evaluate 10 bindsArgument 0 (.start []) = .ok none
        ((evaluate 10 bindsArgument 0).after (.start [])) := by
    refine ⟨?_, ?_⟩
    all_goals cbv
  have hnot : ¬∃ m₁, TrailsOff 9 givesArgument 0 (.start []) m₁ := by
    rintro ⟨m₁, htrails⟩
    have hnone := htrails.evaluate_eq
    rw [hvalue] at hnone
    cases hnone
  obtain ⟨-, hbinds, -⟩ := binds_unless_trailsOff rfl rfl (by decide) hstatement (by decide)
  obtain ⟨v, m₁, hv, -, hbound⟩ := hbinds hnot
  refine ⟨hnot, _, hstatement, hbound.trans ?_⟩
  have hsame := hvalue.symm.trans hv
  cases hsame
  rfl

/-- The program `let x = fn() { }();`. -/
def bindsNothing : Node := (parse "let x = fn() \x7b \x7d();").tree

/-- A body without statements gives no value: no error is given, and the name is not bound. -/
theorem unbound_after_bindsNothing :
    (parse "let x = fn() \x7b \x7d();").errors = [] ∧
    ∃ m, evaluate 20 bindsNothing Machine.globalScope (.start []) = .ok none m ∧
      m.binding? Machine.globalScope "x" = none := by
  obtain ⟨hstatement, hunbound⟩ :
      evaluate 20 bindsNothing Machine.globalScope (.start []) = .ok none
        ((evaluate 20 bindsNothing Machine.globalScope).after (.start [])) ∧
      ((evaluate 20 bindsNothing Machine.globalScope).after (.start [])).binding?
        Machine.globalScope "x" = none := by
    refine ⟨?_, ?_⟩
    all_goals cbv
  exact ⟨by decide +kernel, _, hstatement, hunbound⟩

end Monkey
