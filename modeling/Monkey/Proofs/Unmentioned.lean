import Monkey.Proofs.Stored

/-!
# Names that a program does not mention

A global binding of a name that does not stand in a program makes no difference to the program
(`evaluate_unmentioned`), not even if the name is that of a built-in function: the program is evaluated
in the same way with and without it, and the binding stays as it is.

The two runs are compared step by step. Scopes and values hold functions, whose bodies will be
evaluated later, so it is part of the invariant that the name does not stand in them either.
-/

namespace Monkey

/-! ## Names in programs -/

namespace Node

/-- The names that a node itself evaluates, binds, assigns to or takes as parameters. -/
def ownNames : Node → List String
  | identifier x | letBinding _ x _ | constBinding _ x _ | assignment _ x _ => [x.value]
  | function _ parameters _ => parameters.map Name.value
  | _ => []

/-- Whether a name stands in a node or in one of its parts, at any depth. -/
def mentions (name : String) (node : Node) : Bool :=
  node.ownNames.contains name || node.parts.attach.any fun ⟨part, _⟩ => part.mentions name
termination_by sizeOf node
decreasing_by exact sizeOf_lt_of_mem_parts ‹_›

/-- A name that is set is a name of the node. -/
theorem name_mem_ownNames {node : Node} {setting : Setting} (h : node.setting? = some setting) :
    setting.name ∈ node.ownNames := by
  cases node with
  | letBinding | constBinding | assignment =>
    cases h
    exact List.mem_cons_self
  | _ => cases h

/-- A tree mentions a name in its node or in a part. -/
theorem not_mentions_iff {name : String} {node : Node} :
    ¬node.mentions name ↔
      name ∉ node.ownNames ∧ ∀ part ∈ node.parts, ¬part.mentions name := by
  rw [mentions]
  simp

end Node

/-- The name does not stand in a function. -/
def Value.Ignores (name : String) : Value → Prop
  | .function _ parameters body _ => name ∉ parameters.map Name.value ∧ ¬body.mentions name
  | _ => True

/-- Only a function mentions names. -/
theorem Value.ignores_of_isPlain {name : String} (v : Value) (hv : v.isPlain) : v.Ignores name := by
  cases v with
  | function => cases hv
  | _ => trivial

theorem Value.ignores_of_isReturned {name : String} (v : Value) (hv : v.isReturned) :
    v.Ignores name := by
  cases v with
  | returned => trivial
  | _ => cases hv

/-! ## One more global binding -/

/-- The scope of the given number with a binding in front, if it is the global one. -/
def Scope.besides (b : Binding) (i : Nat) (s : Scope) : Scope :=
  if i = Machine.globalScope then { s with bindings := b :: s.bindings } else s

/-- The machine with one more binding in front of the global ones. -/
def Machine.withGlobal (b : Binding) (m : Machine) : Machine :=
  m.withScopes (m.scopes.mapIdx (Scope.besides b))

/-- The name is not bound, and it stands in no function. -/
def Machine.Ignores (name : String) : Machine → Prop :=
  Binds fun b => b.name ≠ name ∧ b.value.Every (Value.Ignores name)

section

variable {b b' : Binding} {name : String} {m : Machine}

namespace Scope

/-- Other names are found as before. -/
theorem find?_besides (h : name ≠ b.name) (i : Nat) (s : Scope) :
    (s.besides b i).find? name = s.find? name := by
  unfold besides
  split
  · exact List.find?_cons_of_neg (by simpa using Ne.symm h)
  · rfl

theorem outer_besides (i : Nat) (s : Scope) : (s.besides b i).outer = s.outer := by
  unfold besides
  split <;> rfl

/-- A declaration of another name does not meet the new binding. -/
theorem declare_besides (h : b'.name ≠ b.name) (i : Nat) (s : Scope) :
    (s.besides b i).declare b' = (s.declare b').besides b i := by
  unfold besides
  split
  · unfold declare
    rw [put, if_neg (Ne.symm h)]
  · rfl

end Scope

namespace Machine

theorem getElem?_withGlobal (i : Nat) :
    (m.withGlobal b).scopes[i]? = (m.scopes[i]?).map (Scope.besides b i) :=
  Array.getElem?_mapIdx

/-- Another name is looked up as before. -/
theorem lookup?_withGlobal (h : name ≠ b.name) (scope : Nat) :
    (m.withGlobal b).lookup? name scope = m.lookup? name scope := by
  induction scope using Nat.strongRecOn with
  | ind scope ih =>
    rw [lookup?, lookup?, getElem?_withGlobal]
    cases m.scopes[scope]? with
    | none => rfl
    | some s =>
      simp only [Option.map_some, Scope.find?_besides h, Scope.outer_besides]
      cases s.find? name with
      | some found => rfl
      | none =>
        cases s.outer with
        | none => rfl
        | some outer =>
          by_cases hless : outer < scope
          · simp only [if_pos hless, ih outer hless]
          · simp only [if_neg hless]

/-- A declaration is made beside the new binding. -/
theorem declare_withGlobal (h : b'.name ≠ b.name) (scope : Nat) :
    (m.withGlobal b).declare scope b' = (m.declare scope b').withGlobal b := by
  have hscopes : ((m.withGlobal b).declare scope b').scopes =
      ((m.declare scope b').withGlobal b).scopes := by
    refine Array.ext_getElem? fun i => ?_
    rw [getElem?_withGlobal, declare, declare, Array.getElem?_modify, Array.getElem?_modify,
      getElem?_withGlobal]
    cases m.scopes[i]? with
    | none => split <;> rfl
    | some s =>
      split
      · exact congrArg some (s.declare_besides h i)
      · rfl
  exact congrArg m.withScopes hscopes

/-- An assignment to another name. -/
theorem assign_withGlobal (h : name ≠ b.name) (scope : Nat) (v : Value) :
    (m.withGlobal b).assign scope name v =
      ((m.assign scope name v).1, (m.assign scope name v).2.withGlobal b) := by
  have hfind : ((m.withGlobal b).scopes[scope]?).bind (·.find? name) =
      (m.scopes[scope]?).bind (·.find? name) := by
    rw [getElem?_withGlobal]
    cases m.scopes[scope]? with
    | none => rfl
    | some s => exact s.find?_besides h scope
  unfold assign
  rw [hfind]
  split
  · rfl
  · split
    · rfl
    · rw [declare_withGlobal h]

/-- A scope is added behind the global one. -/
theorem addScope_withGlobal (h : globalScope < m.scopes.size) (s : Scope) :
    (m.withGlobal b).addScope s = ((m.addScope s).1, (m.addScope s).2.withGlobal b) := by
  have hnew : s.besides b m.scopes.size = s := if_neg (Nat.ne_of_gt h)
  have hscopes : ((m.withGlobal b).addScope s).2.scopes = ((m.addScope s).2.withGlobal b).scopes := by
    show (m.scopes.mapIdx (Scope.besides b)).push s = (m.scopes.push s).mapIdx (Scope.besides b)
    rw [Array.mapIdx_push, hnew]
  exact Prod.ext Array.size_mapIdx (congrArg m.withScopes hscopes)

end Machine

/-! ## Two runs side by side -/

/-- The second machine has one more global binding, of a name that the first one ignores. -/
structure Differs (b : Binding) (m m' : Machine) : Prop where
  withGlobal : m' = m.withGlobal b
  hasGlobal : Machine.globalScope < m.scopes.size
  ignores : m.Ignores b.name

/-- The course of two runs whose machines differ by a binding. Anything may happen to them, as long as
they differ by no more. -/
def besides (b : Binding) : Course := ⟨Differs b, .any⟩

/-- Two runs that stay alike end alike, with the new binding or without it. -/
theorem Alike.eq_onState {m : Machine} {post : Machine → α → Prop}
    {o o' : EStateM.Result Halt Machine α} (h : Alike ((besides b).Reaches m) post o o') :
    o' = onState (Machine.withGlobal b) o := by
  cases h with
  | ok _ machines =>
    rw [machines.related.withGlobal]
    rfl
  | error machines =>
    rw [machines.related.withGlobal]
    rfl

theorem Differs.of_scopes_eq {m m' s : Machine} (h : Differs b m m') (hs : s.scopes = m.scopes) :
    Differs b s (s.withScopes (m.withGlobal b).scopes) := by
  obtain ⟨rfl, hglobal, hm⟩ := h
  refine ⟨?_, hs ▸ hglobal, hm.of_scopes_eq hs⟩
  rw [Machine.withGlobal, Machine.withGlobal, hs]
  rfl

/-- What a run computes from values it computes alike. -/
theorem carries_besides : (besides b).Carries fun _ => Value.Ignores b.name where
  plain _ := Value.ignores_of_isPlain
  lasts _ _ _ _ h := h
  oblivious := by
    intro α x post m m' hm hx hyields
    have hscopes := hx.keeps m
    have hend := hx m (m.withGlobal b).scopes
    unfold Tracks Eval.after at *
    obtain rfl := hm.withGlobal
    rw [show x (m.withGlobal b) = _ from hend]
    cases hrun : x m with
    | ok a s =>
      rw [hrun] at hscopes
      exact .ok (hyields m a s hrun) ⟨hm.of_scopes_eq hscopes, trivial⟩
    | error halt s =>
      rw [hrun] at hscopes
      exact .error ⟨hm.of_scopes_eq hscopes, trivial⟩

/-- A name is set that is not the one that differs. -/
theorem tracks_set {m m' : Machine} {setting : Setting} {v : Value} (hm : Differs b m m')
    (scope : Nat) (hname : setting.name ≠ b.name) (hv : v.Every (Value.Ignores b.name)) :
    Tracks (besides b) (NodeResult (fun _ => Value.Ignores b.name) false) (setting.apply scope v)
      m m' := by
  obtain ⟨rfl, hglobal, hm⟩ := hm
  have hassign := Machine.assign_withGlobal (m := m) hname scope v
  refine .set (fun constant => ⟨⟨Machine.declare_withGlobal hname scope, ?_, ?_⟩, trivial⟩)
    (by rw [hassign]) ⟨⟨by rw [hassign], ?_, ?_⟩, trivial⟩
  · exact Nat.lt_of_lt_of_le hglobal (Preserves.declare scope _ m).size
  · exact hm.declare scope ⟨hname, hv⟩
  · exact Nat.lt_of_lt_of_le hglobal (Preserves.assign scope setting.name v m).size
  · exact (keeping (Machine.Ignores b.name)).holds_assign (fun hm => hm.declare scope ⟨hname, hv⟩) hm

/-- A name is looked up that is not the one that differs. -/
theorem tracks_evaluateName {m m' : Machine} (hm : Differs b m m') (scope : Nat)
    (hname : name ≠ b.name) :
    Tracks (besides b) (NodeResult (fun _ => Value.Ignores b.name) false) (evaluateName name scope)
      m m' := by
  refine .evaluateName carries_besides hm ?_ fun v hv => ?_
  · rw [hm.withGlobal]
    exact Machine.lookup?_withGlobal hname scope
  · obtain ⟨found, hfound, rfl⟩ := hm.ignores.lookup? hv
    exact hfound.2

variable {run : Evaluator}

/-- The evaluator does not see the binding, in nodes that do not mention its name. -/
def Evaluator.Spares (b : Binding) (run : Evaluator) : Prop :=
  ∀ {node : Node} (scope : Nat) {m m' : Machine}, ¬node.mentions b.name → Differs b m m' →
    Tracks (besides b) (NodeResult (fun _ => Value.Ignores b.name) node.mayReturn)
      (run node scope) m m'

/-- A function that does not mention the name is called alike. -/
theorem tracks_applyFunction {m m' : Machine} {f : Value} {vs : List Value} (hrun : run.Spares b)
    (hm : Differs b m m') (hf : Fits (Value.Ignores b.name) true f)
    (hvs : ∀ v ∈ vs, v.Every (Value.Ignores b.name)) :
    Tracks (besides b) (NodeResult (fun _ => Value.Ignores b.name) false) (applyFunction run f vs)
      m m' := by
  have hfunction {i parameters body scope} (h : f = .function i parameters body scope) :
      b.name ∉ parameters.map Name.value ∧ ¬body.mentions b.name := by
    subst h
    exact hf.self.resolve_right fun h => by cases h.2
  have hadd {i parameters body scope bindings} (h : f = .function i parameters body scope)
      (hbind : bindParameters [] parameters vs = .ok bindings) :
      Differs b (m.addScope ⟨some scope, bindings⟩).2 (m'.addScope ⟨some scope, bindings⟩).2 := by
    obtain ⟨rfl, hglobal, hm⟩ := hm
    refine ⟨congrArg Prod.snd (Machine.addScope_withGlobal hglobal _),
      Nat.lt_of_lt_of_le hglobal (Preserves.addScope _ m).size, hm.addScope ?_⟩
    refine forall_bindParameters (List.forall_mem_nil _) (fun x hx v hv => ⟨?_, hvs v hv⟩) hbind
    exact fun hname => (hfunction h).1 (hname ▸ List.mem_map_of_mem hx)
  refine .applyFunction carries_besides hm hvs (fun h hbind => ⟨?_, hadd h hbind, trivial⟩)
    fun h hbind => hrun _ (hfunction h).2 (hadd h hbind)
  rw [hm.withGlobal]
  exact Array.size_mapIdx

/-- A node that does not mention the name is evaluated alike, if its parts are. -/
theorem spares_evaluateWith (hrun : run.Spares b) : (evaluateWith run).Spares b := by
  intro node scope m m' hnode hm
  obtain ⟨hnames, hparts⟩ := Node.not_mentions_iff.mp hnode
  refine .evaluateWith carries_besides hm
    { part := fun e he s s' hs => hrun scope (hparts e he) hs.related
      kept := fun _ _ _ _ => Value.ignores_of_isReturned
      name := ?_, set := ?_, function := ?_
      call := fun f vs s s' hs => tracks_applyFunction hrun hs.related }
  · rintro x rfl
    exact tracks_evaluateName hm scope fun h => hnames (h ▸ List.mem_cons_self)
  · intro setting hsetting v s s' hs
    refine tracks_set hs.related scope fun h => hnames ?_
    exact h ▸ Node.name_mem_ownNames hsetting
  · rintro t parameters body rfl i
    exact ⟨hnames, hparts body List.mem_cons_self⟩

theorem spares_evaluate (depth : Nat) : (evaluate depth).Spares b := by
  induction depth with
  | zero => exact fun _ _ _ _ hm => .throw hm _
  | succ depth ih => exact spares_evaluateWith ih

end

/-- **Names that a program does not mention do not matter.** A name that stands nowhere in a program is
bound in a fresh global scope, as a variable or as a constant, to any value. Then the program ends as
it does without that binding, with the same result or halt, the same output and the same rest of the
input; the scopes differ by that one binding, which is as it was, and without it the name is bound
nowhere. -/
theorem evaluate_unmentioned {program : Node} {name : String} (h : ¬program.mentions name)
    (constant : Bool) (v : Value) (depth identity : Nat) (input : List Incoming)
    (output : Array Piece) :
    let fresh : Machine := ⟨#[⟨none, []⟩], identity, input, output⟩
    let b : Binding := ⟨name, constant, v⟩
    evaluate depth program Machine.globalScope (fresh.declare Machine.globalScope b) =
        onState (Machine.withGlobal b) (evaluate depth program Machine.globalScope fresh) ∧
      ∀ s ∈ ((evaluate depth program Machine.globalScope).after fresh).scopes,
        s.find? name = none := by
  intro fresh b
  have hfresh : Differs b fresh (fresh.declare Machine.globalScope b) := by
    refine ⟨rfl, Nat.one_pos, ?_⟩
    simp [Machine.Ignores, Machine.Binds, fresh]
  have htracks := spares_evaluate depth Machine.globalScope h hfresh
  refine ⟨Alike.eq_onState htracks, fun s hs => ?_⟩
  refine List.find?_eq_none.mpr fun b' hb' => ?_
  simpa using (htracks.after.related.ignores s hs b' hb').1

/-- A function that calls itself, and a constant with the name of a built-in function that the
function does not use. -/
theorem evaluate_unmentioned_recursion :
    let text := "let f = fn(n) \x7b if (n < 1) \x7b puts(\"end\") \x7d else \x7b f(n - 1) \x7d \x7d; f(2)"
    let fresh := Machine.start [.line "some input"]
    let b : Binding := ⟨"len", true, .str "z"⟩
    ¬(parse text).tree.mentions "len" ∧
    (Builtin.ofName? "len").isSome ∧
    (parse text).tree.evaluate 0 (fresh.declare 0 b) =
      onState (Machine.withGlobal b) ((parse text).tree.evaluate 0 fresh) := by
  intro text fresh b
  have h : ¬(parse text).tree.mentions "len" := by decide +kernel
  refine ⟨h, by decide, ?_⟩
  exact (evaluate_unmentioned h true (.str "z") depthLimit 0 _ #[]).1

end Monkey
