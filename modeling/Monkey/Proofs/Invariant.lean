import Monkey.Proofs.Moments

/-!
# Invariants of evaluation

An `Invariant` says something of machines, of values and of the nodes that may be evaluated, and how
machines may change meanwhile. It is enough to look at what evaluation does to the scopes: names are
looked up and declared, functions are made, and a scope is added for a call. Then the invariant holds
at every moment of evaluating programs one after the other, and whatever an activity gives satisfies it
(`Invariant.of_session`).
-/

namespace Monkey

/-- If something holds of the machine, it still does afterwards. -/
def keeping (inv : Machine → Prop) : Change where
  Holds m m' := inv m → inv m'
  refl _ := id
  trans h₁ h₂ h := h₂ (h₁ h)

/-- Something that evaluation keeps up. -/
structure Invariant where
  OfMachine : Machine → Prop
  OfValue : Machine → Value → Prop
  /-- Which nodes may be evaluated, and in which scopes. -/
  OfNode : Machine → Node → Nat → Prop
  change : Change
  keeps : ∀ {m m'}, change.Holds m m' → OfMachine m → OfMachine m'
  same : ∀ {m m' : Machine}, m'.scopes = m.scopes → change.Holds m m'
  plain : ∀ m v, v.isPlain → OfValue m v
  lasts : Lasts change OfValue
  later : ∀ {m m' node scope}, change.Holds m m' → OfNode m node scope → OfNode m' node scope
  part : ∀ {m node scope part}, OfNode m node scope → part ∈ node.parts → OfNode m part scope
  /-- What is kept is no return wrapper, unless wrappers satisfy the invariant. -/
  kept : ∀ {m node scope part}, OfNode m node scope → part ∈ node.kept → part.mayReturn →
    ∀ m' v, v.isReturned → OfValue m' v
  lookup : ∀ {m : Machine} {name scope v}, OfMachine m → m.lookup? name scope = some v →
    v.Every (OfValue m)
  declare : ∀ {m : Machine} {scope b}, OfMachine m → b.value.Every (OfValue m) →
    change.Holds m (m.declare scope b)
  function : ∀ {m t parameters body scope} i, OfNode m (.function t parameters body) scope →
    OfValue m (.function i parameters body scope)
  addScope : ∀ {m : Machine} {i parameters body scope bindings}, OfMachine m →
    OfValue m (.function i parameters body scope) →
    (∀ b ∈ bindings, b.value.Every (OfValue m)) →
    change.Holds m (m.addScope ⟨some scope, bindings⟩).2
  body : ∀ {m : Machine} {i parameters body scope} bindings,
    OfValue m (.function i parameters body scope) →
    OfNode (m.addScope ⟨some scope, bindings⟩).2 body m.scopes.size

theorem Scope.mem_put {b b' : Binding} {bindings : List Binding} (h : b' ∈ put b bindings) :
    b' = b ∨ b' ∈ bindings := by
  induction bindings with
  | nil => exact .inl (List.mem_singleton.mp h)
  | cons first rest ih =>
    rw [put] at h
    split at h
    · exact (List.mem_cons.mp h).imp_right (List.mem_cons_of_mem _)
    · rcases List.mem_cons.mp h with rfl | h
      · exact .inr List.mem_cons_self
      · exact (ih h).imp_right (List.mem_cons_of_mem _)

/-- Parameters are bound to arguments. -/
theorem forall_bindParameters {P : Binding → Prop} {parameters : List Name} {vs : List Value}
    {bindings bindings' : List Binding} (hbindings : ∀ b ∈ bindings, P b)
    (hnew : ∀ x ∈ parameters, ∀ v ∈ vs, P ⟨x.value, false, v⟩)
    (h : bindParameters bindings parameters vs = .ok bindings') : ∀ b ∈ bindings', P b := by
  fun_induction bindParameters bindings parameters vs with
  | case1 =>
    cases h
    exact hbindings
  | case2 => cases h
  | case3 bindings x _ v _ ih =>
    refine ih (fun b hb => ?_) (fun y hy w hw => ?_) h
    · rcases Scope.mem_put hb with rfl | hb
      · exact hnew x List.mem_cons_self v List.mem_cons_self
      · exact hbindings b hb
    · exact hnew y (List.mem_cons_of_mem _ hy) w (List.mem_cons_of_mem _ hw)

/-- Programs that were evaluated one after the other in the global scope, from a fresh machine on, have
led to a machine; `P` holds of the programs. A program may halt: the next one finds the machine as it
was left. -/
inductive Session (P : Node → Prop) (input : List Incoming) : Machine → Prop where
  | start : Session P input (.start input)
  | next (before : Session P input m) (program : P node) (depth : Nat) :
      Session P input ((evaluate depth node Machine.globalScope).after m)

/-- Whether the result of an activity can be a return wrapper. -/
def Activity.mayReturn : Activity → Bool
  | node part _ => part.mayReturn
  | call .. => false

namespace Invariant

variable (I : Invariant) {m m' : Machine} {run : Evaluator}

theorem carries : I.change.single.Carries I.OfValue :=
  I.change.carries I.same I.plain I.lasts

/-- The invariant of what is carried out. -/
def OfActivity (m : Machine) : Activity → Prop
  | .node part scope => I.OfNode m part scope
  | .call f vs => Fits (I.OfValue m) true f ∧ ∀ v ∈ vs, v.Every (I.OfValue m)

/-- An evaluator keeps up the invariant, in whatever machine that satisfies it. -/
def KeptBy (run : Evaluator) : Prop :=
  ∀ {node scope m}, I.OfMachine m → I.OfNode m node scope →
    Leads I.change (NodeResult I.OfValue node.mayReturn) (run node scope) m

variable {I}

theorem leads_applyFunction {f : Value} {vs : List Value} (hrun : I.KeptBy run)
    (hm : I.OfMachine m) (hf : Fits (I.OfValue m) true f) (hvs : ∀ v ∈ vs, v.Every (I.OfValue m)) :
    Leads I.change (NodeResult I.OfValue false) (applyFunction run f vs) m := by
  have hfunction {i parameters body scope} (h : f = .function i parameters body scope) :
      I.OfValue m (.function i parameters body scope) := by
    subst h
    exact hf.self.resolve_right fun h => by cases h.2
  have hadd {i parameters body scope bindings} (h : f = .function i parameters body scope)
      (hbind : bindParameters [] parameters vs = .ok bindings) :
      I.change.Holds m (m.addScope ⟨some scope, bindings⟩).2 :=
    I.addScope hm (hfunction h)
      (forall_bindParameters (List.forall_mem_nil _) (fun _ _ => hvs) hbind)
  refine leads_iff_tracks.mpr (.applyFunction I.carries rfl hvs
    (fun h hbind => ⟨rfl, rfl, hadd h hbind⟩) fun h hbind => leads_iff_tracks.mp ?_)
  exact hrun (I.keeps (hadd h hbind) hm) (I.body _ (hfunction h))

/-- The step of the induction on the depth. -/
theorem keptBy_evaluateWith (hrun : I.KeptBy run) : I.KeptBy (evaluateWith run) := by
  intro node scope m hm hnode
  refine leads_iff_tracks.mpr (.evaluateWith I.carries rfl
    { part := ?_, kept := fun e he => I.kept hnode he, name := fun x _ => ?_, set := ?_,
      function := ?_, call := ?_ })
  · rintro e he s _ ⟨rfl, hs⟩
    exact leads_iff_tracks.mp (hrun (I.keeps hs hm) (I.part (I.later hs hnode) he))
  · exact .evaluateName I.carries rfl rfl fun v => I.lookup hm
  · rintro setting - v s _ ⟨rfl, hs⟩ hv
    have hdeclare (constant : Bool) :
        I.change.Holds s (s.declare scope ⟨setting.name, constant, v⟩) :=
      I.declare (I.keeps hs hm) hv
    exact .set (fun constant => ⟨rfl, hdeclare constant⟩) rfl
      ⟨rfl, I.change.holds_assign (hdeclare false)⟩
  · rintro t parameters body rfl i
    exact I.function i hnode
  · rintro f vs s _ ⟨rfl, hs⟩ hf hvs
    exact leads_iff_tracks.mp (leads_applyFunction hrun (I.keeps hs hm) hf hvs)

theorem keptBy_evaluate (depth : Nat) : I.KeptBy (evaluate depth) := by
  induction depth with
  | zero => exact fun _ _ => ⟨I.change.refl _, fun h => by cases h⟩
  | succ depth ih => exact keptBy_evaluateWith ih

/-! ## Nested activities -/

theorem leads_perform {activity : Activity} (hm : I.OfMachine m) (h : I.OfActivity m activity)
    (depth : Nat) :
    Leads I.change (NodeResult I.OfValue activity.mayReturn) (activity.perform (evaluate depth))
      m := by
  cases activity with
  | node part scope => exact keptBy_evaluate depth hm h
  | call f vs => exact leads_applyFunction (keptBy_evaluate depth) hm h.1 h.2

/-- The value of a part that is kept satisfies the invariant as it is. -/
theorem leads_kept {scope : Nat} {node part : Node} (hrun : I.KeptBy run) (hm : I.OfMachine m)
    (hnode : I.OfNode m node scope) (hpart : part ∈ node.kept) :
    Leads I.change (fun s => Result (Value.Every (I.OfValue s))) (run part scope) m := by
  have hlead := hrun hm (I.part hnode (Node.mem_parts_of_mem_kept hpart))
  refine ⟨hlead.keeps, fun {a m'} h => (hlead.gives h).mono fun _ => Fits.every fun hmay => ?_⟩
  exact I.kept hnode hpart hmay m'

/-- What a node performs satisfies the invariant if the node does. -/
theorem of_performs {scope : Nat} {node : Node} {pending : Pending} {activity : Activity}
    (hrun : I.KeptBy run) (hm : I.OfMachine m) (hnode : I.OfNode m node scope)
    (h : Performs run scope node m pending activity m') (hlater : I.change.Holds m m') :
    I.OfActivity m' activity := by
  cases activity with
  | node part scope' =>
    obtain ⟨hpart, rfl⟩ := h.mem_inner
    exact I.part (I.later hlater hnode) (Node.mem_parts_of_mem_inner hpart)
  | call f vs =>
    cases h with
    | call callee usable arguments =>
      obtain ⟨hcallee, hf⟩ := (hrun hm (I.part hnode List.mem_cons_self)).of_ok callee
      obtain ⟨harguments, hvs⟩ := Leads.of_gives I.carries.lasts_every (fun e he s hs => by
        have hs := I.change.trans hcallee hs
        exact leads_kept hrun (I.keeps hs hm) (I.later hs hnode) he) arguments
      have hfits := (hf.of_not_isError usable).imp fun _ => I.lasts harguments
      exact ⟨hfits.mono fun _ => rfl, hvs⟩

/-- The invariant at every moment of a run. -/
theorem of_nested {depth d : Nat} {activity activity' : Activity} {around : List (Nat × Pending)}
    (hm : I.OfMachine m) (hactivity : I.OfActivity m activity)
    (h : Nested depth activity m around d activity' m') :
    I.OfMachine m' ∧ I.OfActivity m' activity' := by
  induction h with
  | self => exact ⟨hm, hactivity⟩
  | part _ inner ih =>
    obtain ⟨hm₁, hnode⟩ := ih
    have hrun := keptBy_evaluate (I := I)
    -- whatever the node performs before this part changes the machine as the invariant allows
    have hlater := inner.holds I.same fun pending activity m₂ h hm₂ =>
      (leads_perform (I.keeps hm₂ hm₁) (of_performs (hrun _) hm₁ hnode h hm₂) _).keeps
    exact ⟨I.keeps hlater hm₁, of_performs (hrun _) hm₁ hnode inner hlater⟩
  | body _ bound ih =>
    obtain ⟨hm₁, hf, hvs⟩ := ih
    have hfunction := hf.self.resolve_right fun h => by cases h.2
    have hbindings := forall_bindParameters (P := fun b => b.value.Every (I.OfValue _))
      (List.forall_mem_nil _) (fun _ _ => hvs) bound
    exact ⟨I.keeps (I.addScope hm₁ hfunction hbindings) hm₁, I.body _ hfunction⟩

/-! ## Programs one after the other -/

section

variable {P : Node → Prop} {input : List Incoming} (hstart : I.OfMachine (.start input))
  (hP : ∀ {m node}, I.OfMachine m → P node → I.OfNode m node Machine.globalScope)
include hstart hP

/-- Sessions keep up the invariant. -/
theorem ofMachine_of_session (h : Session P input m) : I.OfMachine m := by
  induction h with
  | start => exact hstart
  | next _ program depth ih => exact I.keeps (keptBy_evaluate depth ih (hP ih program)).keeps ih

/-- **An invariant holds at every moment.** After programs with `P`, and at any moment of evaluating
one more, the machine and what is carried out satisfy the invariant, and so will what that gives. -/
theorem of_session {depth d : Nat} {node : Node} {activity : Activity}
    {around : List (Nat × Pending)} (hsession : Session P input m) (hnode : P node)
    (hnested : Nested depth (.node node Machine.globalScope) m around d activity m') :
    I.OfMachine m' ∧ I.OfActivity m' activity ∧
      Leads I.change (NodeResult I.OfValue activity.mayReturn) (activity.perform (evaluate d))
        m' := by
  have hm := ofMachine_of_session hstart hP hsession
  have hprogram : I.OfActivity m (.node node Machine.globalScope) := hP hm hnode
  obtain ⟨hm', hactivity⟩ := of_nested hm hprogram hnested
  exact ⟨hm', hactivity, leads_perform hm' hactivity d⟩

end

end Invariant

end Monkey
