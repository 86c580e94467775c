import Monkey.Proofs.Budget
import Monkey.Proofs.Written

/-!
# Complete trees

The parser leaves out what it cannot read, statement by statement. What it keeps is complete, also in
a text with errors, and evaluation never comes to a place where a node is missing (`parse_intact`).
-/

namespace Monkey

theorem Node.ne_missing {node : Node} (h : node.all intact) : node ≠ .missing := by
  rintro rfl
  exact absurd (all_iff.mp h).1 Bool.false_ne_true

theorem all_intact_parse (text : String) : (parse text).tree.all Node.intact := by
  obtain ⟨-, -, -, hall⟩ := parseProgram_padded text (ofDepth_refines (Nat.le_refl _)) 0
  refine Node.all_iff.mpr ⟨Node.all_sort hall, fun part hpart => ?_⟩
  exact (hall part hpart).all

/-- **Every tree is complete.** Whatever the text, every node of its tree has all of its parts, and
each of them is a statement, a block or an expression, as it should be. No node is missing in the
tree, nor where the evaluation of such trees, one after the other, has come to. -/
theorem parse_intact (text : String) :
    (parse text).tree.all Node.intact ∧
    (∀ node : Node, node.Within (parse text).tree → node ≠ .missing) ∧
    ∀ {input : List Incoming} {depth d scope : Nat} {part : Node} {m m' : Machine}
      {around : List (Nat × Pending)},
      Session (fun program => ∃ text, program = (parse text).tree) input m →
      Nested depth (.node (parse text).tree Machine.globalScope) m around d (.node part scope) m' →
      part.all Node.intact ∧ part ≠ .missing := by
  have htree := all_intact_parse text
  refine ⟨htree, fun node hnode => Node.ne_missing (hnode.all htree), ?_⟩
  intro input depth d scope part m m' around hsession hnested
  have hsound (program : Node) (h : ∃ text, program = (parse text).tree) :
      program.all Node.intact := by
    obtain ⟨text, rfl⟩ := h
    exact all_intact_parse text
  obtain ⟨-, hparts, -⟩ :=
    written_of_session (.all Node.intact) hsound hsession ⟨text, rfl⟩ hnested
  have hpart := hparts part scope rfl
  exact ⟨hpart, Node.ne_missing hpart⟩

/-- A binding, a binding without a name, and a call that is cut off. -/
def brokenOff : String := "let f = fn(x) \x7b if (x) \x7b -x \x7d \x7d; let 5; f(2"

/-- The number behind the second `let` becomes a statement of its own and the call is left out. The
evaluation of what is left begins with a node that is there. -/
theorem parse_intact_brokenOff :
    (parse brokenOff).errors = [.unexpected .ident .int, .unexpected .rparen .eof] ∧
    (parse brokenOff).tree.all Node.intact ∧
    ∃ first second around, (parse brokenOff).statements = [first, second] ∧
      Nested 20 (.node (parse brokenOff).tree Machine.globalScope) (.start []) around 19
        (.node first Machine.globalScope) (.start []) ∧
      first.all Node.intact ∧ first ≠ .missing := by
  obtain ⟨herrors, hlength⟩ :
      (parse brokenOff).errors = [.unexpected .ident .int, .unexpected .rparen .eof] ∧
        (parse brokenOff).statements.length = 2 := by
    refine ⟨?_, ?_⟩
    all_goals decide +kernel
  obtain ⟨first, second, hstatements⟩ := List.length_eq_two.mp hlength
  have hnested : Nested 20 (.node (parse brokenOff).tree Machine.globalScope) (.start [])
      [(19, .program Machine.globalScope [second])] 19 (.node first Machine.globalScope)
      (.start []) := by
    refine .part .self ?_
    rw [Parsed.tree, hstatements]
    exact .program .nil
  obtain ⟨hall, -, hparts⟩ := parse_intact brokenOff
  exact ⟨herrors, hall, first, second, _, hstatements, hnested, hparts .start hnested⟩

end Monkey
