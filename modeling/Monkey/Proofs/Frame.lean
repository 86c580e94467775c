import Monkey.Proofs.Leads

/-!
# Which scopes evaluation changes

Evaluation in a scope changes the bindings of that scope and of no other scope that was there before,
and it never changes which scope lies around which. A call evaluates the body of the function in a
scope of its own, so it changes no scope that was there before.

The argument is by the depth of evaluation: each construct keeps within the change if its parts do,
and a call adds its scope behind all others.
-/

namespace Monkey

/-- From `m` to `m'` scopes were only added, the links between them stayed, and so did the bindings of
all scopes but those that `own` names. -/
structure Preserves (own : Nat → Prop) (m m' : Machine) : Prop where
  size : m.scopes.size ≤ m'.scopes.size
  outer : ∀ i < m.scopes.size,
    (m'.scopes[i]?).map Scope.outer = (m.scopes[i]?).map Scope.outer
  scopes : ∀ i < m.scopes.size, ¬own i → m'.scopes[i]? = m.scopes[i]?

namespace Preserves

variable {own : Nat → Prop} {m₁ m₂ m₃ : Machine}

theorem of_scopes_eq (h : m₂.scopes = m₁.scopes) : Preserves own m₁ m₂ where
  size := Nat.le_of_eq (by rw [h])
  outer _ _ := by rw [h]
  scopes _ _ _ := by rw [h]

theorem trans (h₁ : Preserves own m₁ m₂) (h₂ : Preserves own m₂ m₃) : Preserves own m₁ m₃ where
  size := Nat.le_trans h₁.size h₂.size
  outer i hi := (h₂.outer i (Nat.lt_of_lt_of_le hi h₁.size)).trans (h₁.outer i hi)
  scopes i hi hown :=
    (h₂.scopes i (Nat.lt_of_lt_of_le hi h₁.size) hown).trans (h₁.scopes i hi hown)

/-- Fewer scopes are protected where more are left out. -/
theorem mono {own' : Nat → Prop} (h : ∀ i, own i → own' i) (hm : Preserves own m₁ m₂) :
    Preserves own' m₁ m₂ where
  size := hm.size
  outer := hm.outer
  scopes i hi hown := hm.scopes i hi fun hi' => hown (h i hi')

/-- A declaration changes the scope that it is made in. -/
theorem declare (scope : Nat) (b : Binding) (m : Machine) :
    Preserves (· = scope) m (m.declare scope b) where
  size := Nat.le_of_eq Array.size_modify.symm
  outer i _ := by
    rw [Machine.declare, Array.getElem?_modify]
    split
    · cases m.scopes[i]? <;> rfl
    · rfl
  scopes i _ hown := by
    rw [Machine.declare, Array.getElem?_modify, if_neg (Ne.symm hown)]

/-- A new scope stands behind the others. -/
theorem addScope (s : Scope) (m : Machine) : Preserves (fun _ => False) m (m.addScope s).2 where
  size := by simp [Machine.addScope]
  outer i hi := by rw [Machine.addScope, Array.getElem?_push_lt hi, Array.getElem?_eq_getElem hi]
  scopes i hi _ := by rw [Machine.addScope, Array.getElem?_push_lt hi, Array.getElem?_eq_getElem hi]

/-- What is done to a scope that is new does nothing to the scopes that were there. -/
theorem trans_new (h₁ : Preserves (fun _ => False) m₁ m₂)
    (h₂ : Preserves (· = m₁.scopes.size) m₂ m₃) : Preserves (fun _ => False) m₁ m₃ where
  size := Nat.le_trans h₁.size h₂.size
  outer i hi := (h₂.outer i (Nat.lt_of_lt_of_le hi h₁.size)).trans (h₁.outer i hi)
  scopes i hi hown :=
    (h₂.scopes i (Nat.lt_of_lt_of_le hi h₁.size) (Nat.ne_of_lt hi)).trans (h₁.scopes i hi hown)

end Preserves

/-- The change that keeps all scopes but those that `own` names. -/
def scopesBut (own : Nat → Prop) : Change where
  Holds := Preserves own
  refl _ := .of_scopes_eq rfl
  trans := .trans

/-- An assignment changes a value and no name, wherever the name is found. -/
theorem Preserves.assign (scope : Nat) (name : String) (value : Value) (m : Machine) :
    Preserves (· = scope) m (m.assign scope name value).2 :=
  (scopesBut (· = scope)).holds_assign (.declare _ _ m)

namespace Keeps

variable {own : Nat → Prop} {scope : Nat}

theorem of_oblivious {x : Eval α} (hx : Oblivious x) : Keeps (scopesBut own) x :=
  hx.keeps.mono fun _ _ => .of_scopes_eq

theorem declareName (name : String) (constant : Bool) (value : Value) :
    Keeps (scopesBut (· = scope)) (declareName scope name constant value) :=
  (Keeps.modify fun m => Preserves.declare _ _ m).bind fun _ => .pure _

theorem assignName (name : String) (value : Value) :
    Keeps (scopesBut (· = scope)) (assignName scope name value) := by
  refine (Keeps.modifyGet fun m => Preserves.assign _ _ _ m).bind fun result => ?_
  cases result <;> exact .pure _

/-- A declaration or an assignment is made from its own scope. -/
theorem set (setting : Setting) (v : Value) :
    Keeps (scopesBut (· = scope)) (setting.apply scope v) := by
  cases setting with
  | declare constant name => exact declareName name constant v
  | assign name => exact assignName name v

theorem evaluateName (name : String) (scope : Nat) :
    Keeps sameScopes (evaluateName name scope) := by
  refine Keeps.get.bind fun m => ?_
  split
  · exact .pure _
  · split
    · exact .pure _
    · exact .pure _

/-- A call changes no scope that was there before: its own one is new. -/
theorem applyFunction {run : Evaluator}
    (hrun : ∀ node scope, Keeps (scopesBut (· = scope)) (run node scope))
    (function : Value) (arguments : List Value) :
    Keeps (scopesBut fun _ => False) (applyFunction run function arguments) := by
  cases function with
  | function _ parameters body scope =>
    simp only [Monkey.applyFunction]
    cases bindParameters [] parameters arguments with
    | error e => exact .pure _
    | ok bindings =>
      -- the body runs in the scope with the first free index, which `m` does not have yet
      intro m
      have hbody := (hrun body m.scopes.size).bind fun r =>
        .pure (r.map Value.unwrap)
      exact (Preserves.addScope ⟨some scope, bindings⟩ m).trans_new (hbody _)
  | builtin b => exact .of_oblivious ((Oblivious.call b arguments).bind fun _ => .pure _)
  | _ => exact .pure _

/-- A node keeps within a change of the scopes if its parts do, and so does what it sets. -/
theorem node {R : Change} {run : Evaluator} {node : Node}
    (hsame : ∀ {m m'}, m'.scopes = m.scopes → R.Holds m m')
    (hstep : ∀ part, Keeps R (run part scope))
    (hcall : ∀ f vs, Keeps R (Monkey.applyFunction run f vs))
    (hset : ∀ setting, node.setting? = some setting → ∀ v, Keeps R (setting.apply scope v)) :
    Keeps R (Monkey.evaluateWith run node scope) := by
  intro m
  refine (Tracks.evaluateWith (R.carries_any hsame) rfl
    { part := fun e _ s s' hs => (hstep e).tracks hs.related
      kept := fun _ _ _ _ _ _ => trivial
      name := fun x _ => ((evaluateName x.value scope).mono fun _ _ => hsame).tracks rfl
      set := fun setting h v s s' hs _ => (hset setting h v).tracks hs.related
      function := fun _ _ _ _ _ => trivial
      call := fun f vs s s' hs _ _ => (hcall f vs).tracks hs.related }).after.change

/-- **A node declares names in its own scope only**, if its parts do. -/
theorem evaluateWith {run : Evaluator}
    (hrun : ∀ node scope, Keeps (scopesBut (· = scope)) (run node scope)) (node : Node)
    (scope : Nat) : Keeps (scopesBut (· = scope)) (evaluateWith run node scope) :=
  Keeps.node .of_scopes_eq (fun part => hrun part scope)
    (fun f vs => (applyFunction hrun f vs).mono fun _ _ => .mono fun _ h => h.elim)
    fun setting _ v => set setting v

/-- By induction on the depth. -/
theorem evaluate (depth : Nat) (node : Node) (scope : Nat) :
    Keeps (scopesBut (· = scope)) (evaluate depth node scope) := by
  induction depth generalizing node scope with
  | zero => exact .throw _
  | succ depth ih => exact evaluateWith ih node scope

end Keeps

/-- **Evaluation changes one scope.** However it ends, evaluation leaves every scope that was there
before as it was, except the bindings of the scope it takes place in; no link to an outer scope
changes. A call changes no scope that was there before. -/
theorem scopes_after_evaluate (depth : Nat) (node : Node) (scope : Nat) (m : Machine) :
    (∀ i < m.scopes.size, i ≠ scope →
      ((evaluate depth node scope).after m).scopes[i]? = m.scopes[i]?) ∧
    (∀ i < m.scopes.size,
      (((evaluate depth node scope).after m).scopes[i]?).map Scope.outer =
        (m.scopes[i]?).map Scope.outer) ∧
    ∀ function arguments, ∀ i < m.scopes.size,
      ((applyFunction (evaluate depth) function arguments).after m).scopes[i]? = m.scopes[i]? := by
  have hnode : Preserves (· = scope) m _ := Keeps.evaluate depth node scope m
  refine ⟨hnode.scopes, hnode.outer, fun function arguments i hi => ?_⟩
  have hcall : Preserves (fun _ => False) m _ :=
    Keeps.applyFunction (Keeps.evaluate depth) function arguments m
  exact hcall.scopes i hi id

/-- A global name is neither changed nor made constant by a function that declares the same name. -/
theorem scopes_after_evaluate_shadowing :
    let x : Name := ⟨⟨.ident, "x"⟩, "x"⟩
    let m : Machine := ⟨#[⟨none, [⟨"x", false, .int 1⟩]⟩], 1, [], #[]⟩
    let body : Node := .block ⟨.lbrace, "\x7b"⟩
      [.constBinding ⟨.constWord, "const"⟩ x (.integer ⟨.int, "2"⟩ 2)]
    let outcome := (applyFunction (evaluate 9) (.function 0 [] body 0) []).after m
    0 < m.scopes.size ∧ outcome.scopes[0]? = m.scopes[0]? ∧
      (outcome.scopes[1]?).map (fun s => s.bindings.map Binding.constant) = some [true] := by
  refine ⟨by decide, (scopes_after_evaluate 9 .missing 0 _).2.2 _ _ 0 (by decide), ?_⟩
  rfl

end Monkey
