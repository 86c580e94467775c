import Monkey.Proofs.Stored

/-!
# Functions as they were written

A function keeps its body as it stands in the program, and evaluation makes no other function. So
what can be said of the nodes of the programs can be said of every node that is evaluated, and what
can be said of the bodies of their functions can be said of the body of every function that is bound,
passed or given back (`written_of_session`).
-/

namespace Monkey

/-- `P` passes on to the parts of a node, and `Q` holds of the bodies of the functions in it. -/
structure Inherits (P Q : Node → Prop) : Prop where
  part : ∀ {node part}, P node → part ∈ node.parts → P part
  body : ∀ {token parameters body}, P (.function token parameters body) → Q body
  called : ∀ {body}, Q body → P body

/-- What holds of all nodes of a tree holds of all nodes of the bodies in it. -/
theorem Inherits.all (p : Node → Bool) : Inherits (·.all p) (·.all p) where
  part h hpart := (Node.all_iff.mp h).2 _ hpart
  body h := (Node.all_iff.mp h).2 _ List.mem_cons_self
  called h := h

/-- If a value is a function, `Q` holds of its body. -/
def Value.Written (Q : Node → Prop) : Value → Prop
  | function _ _ body _ => Q body
  | _ => True

variable {P Q : Node → Prop}

theorem written_of_isPlain (v : Value) (hv : v.isPlain) : v.Written Q := by
  cases v with
  | function => cases hv
  | _ => trivial

theorem written_of_isReturned (v : Value) (hv : v.isReturned) : v.Written Q := by
  cases v with
  | returned => trivial
  | _ => cases hv

/-- Functions are made of what was written. -/
theorem Inherits.confines (h : Inherits P Q) : Confines P (Value.Written Q) where
  plain := written_of_isPlain
  part := h.part
  kept _ _ _ := written_of_isReturned
  function _ _ := h.body
  body := h.called

/-- **What is evaluated was written.** After programs with `P`, and at any moment of evaluating one
more, what is evaluated is within `P`, and the functions that are bound or given back have bodies with
`Q`. -/
theorem written_of_session {S : Node → Prop} {input : List Incoming} {depth d : Nat} {node : Node}
    {activity : Activity} {m m' : Machine} {around : List (Nat × Pending)} (hinherits : Inherits P Q)
    (hsound : ∀ node, S node → P node) (hsession : Session S input m) (hnode : S node)
    (hnested : Nested depth (.node node Machine.globalScope) m around d activity m') :
    m'.Stores (Value.Written Q) ∧ (∀ part scope, activity = .node part scope → P part) ∧
    ∀ v m'', activity.perform (evaluate d) m' = .ok (some v) m'' →
      v.OrError (Value.Every (Value.Written Q)) := by
  obtain ⟨hm', -, hpart, -, hgives⟩ :=
    hinherits.confines.of_session hsound hsession hnode hnested
  refine ⟨hm', hpart, fun v m'' hv => (hgives v m'' hv).imp_right ?_⟩
  exact Fits.every fun _ => written_of_isReturned

end Monkey
