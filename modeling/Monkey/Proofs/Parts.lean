import Monkey.Tree

/-!
# Parts of a tree

The nodes of a tree, reached from its root by going from a node to its parts. A check that each node
passes is a check of the tree (`Node.all`), and what passes it also passes it part by part.
-/

namespace Monkey

namespace Node

/-- The parts of a node that are evaluated with it, or with the function that it makes. -/
def parts : Node → List Node
  | program statements | block _ statements => statements
  | letBinding _ _ e | constBinding _ _ e | assignment _ _ e | returning _ e | statement _ e
  | prefixOp _ _ e | function _ _ e => [e]
  | loop _ a b | infixOp _ _ a b | ifThen _ a b | index _ a b => [a, b]
  | ifElse _ a b c => [a, b, c]
  | call _ f es => f :: es
  | array _ es => es
  | dictionary _ pairs => pairs.map Prod.fst ++ pairs.map Prod.snd
  | missing | identifier _ | integer .. | float .. | boolean .. | string .. => []

/-- The key of a pair is a part of the dictionary. -/
theorem mem_parts_key (t : Token) {pair : Node × Node} {pairs : List (Node × Node)}
    (h : pair ∈ pairs) : pair.1 ∈ (dictionary t pairs).parts :=
  List.mem_append_left _ (List.mem_map_of_mem h)

theorem mem_parts_value (t : Token) {pair : Node × Node} {pairs : List (Node × Node)}
    (h : pair ∈ pairs) : pair.2 ∈ (dictionary t pairs).parts :=
  List.mem_append_right _ (List.mem_map_of_mem h)

/-- A part is smaller than the node, which is what inductions over trees go by. -/
theorem sizeOf_lt_of_mem_parts {part node : Node} (h : part ∈ node.parts) :
    sizeOf part < sizeOf node := by
  cases node with
  | dictionary _ pairs =>
    have hpair : ∃ pair ∈ pairs, part = pair.1 ∨ part = pair.2 := by
      simp only [parts, List.mem_append, List.mem_map] at h
      grind
    obtain ⟨⟨k, v⟩, hmem, hpart⟩ := hpair
    have hsize := List.sizeOf_lt_of_mem hmem
    simp only [Prod.mk.sizeOf_spec, dictionary.sizeOf_spec] at hsize ⊢
    rcases hpart with rfl | rfl <;> omega
  | program nodes | block _ nodes | array _ nodes =>
    have hsize : sizeOf part < sizeOf nodes := List.sizeOf_lt_of_mem h
    simp only [program.sizeOf_spec, block.sizeOf_spec, array.sizeOf_spec]
    omega
  | call _ f nodes =>
    have hsize : sizeOf part < sizeOf (f :: nodes) := List.sizeOf_lt_of_mem h
    simp only [List.cons.sizeOf_spec, call.sizeOf_spec] at hsize ⊢
    omega
  | _ =>
    simp only [parts, List.mem_cons, List.not_mem_nil, or_false] at h
    try rcases h with rfl | rfl | rfl
    all_goals simp <;> omega

/-- What holds of a node if it holds of its parts holds of every node. -/
@[elab_as_elim]
theorem induction_parts {motive : Node → Prop} (node : Node)
    (h : ∀ node : Node, (∀ part ∈ node.parts, motive part) → motive node) : motive node :=
  h node fun part _ => induction_parts part h
termination_by sizeOf node
decreasing_by exact sizeOf_lt_of_mem_parts ‹_›

/-- Whether a node and all that is within it pass a check. -/
def all (p : Node → Bool) (node : Node) : Bool :=
  p node && node.parts.attach.all fun ⟨part, _⟩ => part.all p
termination_by sizeOf node
decreasing_by exact sizeOf_lt_of_mem_parts ‹_›

/-- A check of all nodes of a tree is one of the node and of all nodes of its parts. -/
theorem all_iff {p : Node → Bool} {node : Node} :
    node.all p ↔ p node ∧ ∀ part ∈ node.parts, part.all p := by
  rw [all]
  simp

/-- A node is within another one if it is reached by going from a node to its parts. -/
inductive Within : Node → Node → Prop where
  | self : Within node node
  | part (mem : part ∈ tree.parts) (inside : Within node part) : Within node tree

/-- A tree inside another one passes the checks that the other one passes. -/
theorem Within.all {p : Node → Bool} {node tree : Node} (h : Within node tree)
    (htree : tree.all p) : node.all p := by
  induction h with
  | self => exact htree
  | part mem _ ih => exact ih ((all_iff.mp htree).2 _ mem)

end Node

end Monkey
