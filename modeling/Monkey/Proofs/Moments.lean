import Monkey.Proofs.Frame

/-!
# What holds at every moment of a run

Whether a run keeps to a change depends on the activities that it performs, and on nothing else: if
each of them does, from the machine in which it starts, then so does the machine before each of them
(`Performs.holds`) and the machine behind the whole node (`holds_of_performs`). In contrast to the
rules for `Keeps`, nothing is asked of activities that this run does not perform.

Scopes change where a name is set, and in no other way but that calls add some. So a run keeps to a
change, at every moment, if the statements that it executes do where they set a name
(`holds_of_nested`).
-/

namespace Monkey

variable {R : Change}

theorem Change.holds_of_ok {x : Eval α} {a : α} {m m' : Machine} (h : x m = .ok a m')
    (hx : R.Holds m (x.after m)) : R.Holds m m' :=
  Eval.after_of_ok h ▸ hx

theorem Change.holds_withValue {x : Eval (Option Value)} {next : Value → Eval (Option Value)}
    {m : Machine} (hx : R.Holds m (x.after m))
    (hnext : ∀ v m', x m = .ok (some v) m' → ¬isError (some v) → R.Holds m' ((next v).after m')) :
    R.Holds m ((withValue x next).after m) := by
  refine R.holds_bind hx fun result m' h => ?_
  cases result with
  | none => exact R.refl m'
  | some v =>
    cases v with
    | error e => exact R.refl m'
    | _ => exact hnext _ m' h Bool.false_ne_true

/-! ## What was done before a part -/

section

variable {step : Node → Eval (Option Value)} {m m' : Machine}

theorem Passes.holds {nodes : List Node} (h : Passes step nodes m m')
    (hstep : ∀ earlier s later m₁, nodes = earlier ++ s :: later → Passes step earlier m m₁ →
      R.Holds m m₁ → R.Holds m₁ ((step s).after m₁)) : R.Holds m m' := by
  induction h with
  | nil => exact R.refl _
  | cons first goesOn _ ih =>
    have hfirst := R.holds_of_ok first (hstep [] _ _ _ rfl .nil (R.refl _))
    refine R.trans hfirst (ih fun earlier s later m₁ hnodes before hm₁ => ?_)
    exact hstep (_ :: earlier) s later m₁ (by rw [hnodes]; rfl) (.cons first goesOn before)
      (R.trans hfirst hm₁)

theorem Gives.holds {nodes : List Node} {vs : List Value} (h : Gives step nodes m vs m')
    (hstep : ∀ earlier e later us m₁, nodes = earlier ++ e :: later → Gives step earlier m us m₁ →
      R.Holds m m₁ → R.Holds m₁ ((step e).after m₁)) : R.Holds m m' := by
  induction h with
  | nil => exact R.refl _
  | cons first usable _ ih =>
    have hfirst := R.holds_of_ok first (hstep [] _ _ [] _ rfl .nil (R.refl _))
    refine R.trans hfirst (ih fun earlier e later us m₁ hnodes before hm₁ => ?_)
    exact hstep (_ :: earlier) e later (_ :: us) m₁ (by rw [hnodes]; rfl)
      (.cons first usable before) (R.trans hfirst hm₁)

theorem Files.holds {nodes : List (Node × Node)} {pairs pairs' : Pairs}
    (hsame : ∀ {m m'}, m'.scopes = m.scopes → R.Holds m m')
    (h : Files step pairs nodes m pairs' m')
    (hkey : ∀ earlier k v later pairs₁ m₁, nodes = earlier ++ (k, v) :: later →
      Files step pairs earlier m pairs₁ m₁ → R.Holds m m₁ → R.Holds m₁ ((step k).after m₁))
    (hvalue : ∀ earlier k v later pairs₁ m₁ key h m₂, nodes = earlier ++ (k, v) :: later →
      Files step pairs earlier m pairs₁ m₁ → step k m₁ = .ok (some key) m₂ →
      ¬isError (some key) → key.hashKey? = some h → R.Holds m m₂ →
      R.Holds m₂ ((step v).after m₂)) : R.Holds m m' := by
  induction h with
  | nil => exact R.refl _
  | cons key usableKey hash value usableValue insert _ ih =>
    have hm₁ := R.holds_of_ok key (hkey [] _ _ _ _ _ rfl .nil (R.refl _))
    have hm₂ := R.trans hm₁ (R.holds_of_ok value
      (hvalue [] _ _ _ _ _ _ _ _ rfl .nil key usableKey hash hm₁))
    have hm₃ := R.trans hm₂ (R.holds_of_ok insert (hsame ((Oblivious.insertPair _ _ _).keeps _)))
    refine R.trans hm₃ (ih (fun earlier k v later pairs₁ m₁ hnodes before hm => ?_)
      fun earlier k v later pairs₁ m₁ key' h m₂ hnodes before hk usable hh hm => ?_)
    · exact hkey (_ :: earlier) k v later pairs₁ m₁ (by rw [hnodes]; rfl)
        (.cons key usableKey hash value usableValue insert before) (R.trans hm₃ hm)
    · exact hvalue (_ :: earlier) k v later pairs₁ m₁ key' h m₂ (by rw [hnodes]; rfl)
        (.cons key usableKey hash value usableValue insert before) hk usable hh (R.trans hm₃ hm)

/-- A round after which a loop goes on. -/
theorem loopRound_eq_none {c b : Eval (Option Value)} (h : loopRound c b m = .ok none m') :
    ∃ v m₁ result, c m = .ok (some v) m₁ ∧ ¬isError (some v) ∧ v.truthy ∧
      b m₁ = .ok result m' := by
  rw [loopRound_eq] at h
  obtain ⟨condition, m₁, hc, h⟩ := Eval.bind_eq_ok h
  by_cases herror : isError condition
  · rw [if_pos herror] at h
    cases h
  rw [if_neg herror] at h
  by_cases htrue : condition.any Value.truthy
  · rw [if_pos htrue] at h
    obtain ⟨result, m₂, hb, h⟩ := Eval.bind_eq_ok h
    obtain ⟨v, rfl, hv⟩ := Option.any_eq_true _ _ |>.mp htrue
    split at h
    · cases h
    · cases h
      exact ⟨v, m₁, result, hc, herror, hv, hb⟩
  · rw [if_neg htrue] at h
    cases h

theorem Rounds.holds {c b : Eval (Option Value)} {n : Nat} (h : Rounds (loopRound c b) n m m')
    (hc : ∀ k m₁, k < n → Rounds (loopRound c b) k m m₁ → R.Holds m m₁ →
      R.Holds m₁ (c.after m₁))
    (hb : ∀ k m₁ v m₂, k < n → Rounds (loopRound c b) k m m₁ → c m₁ = .ok (some v) m₂ →
      ¬isError (some v) → v.truthy → R.Holds m m₂ → R.Holds m₂ (b.after m₂)) : R.Holds m m' := by
  induction h with
  | zero => exact R.refl _
  | succ first _ ih =>
    obtain ⟨v, m₁, result, hcondition, usable, htrue, hbody⟩ := loopRound_eq_none first
    have hm₁ := R.holds_of_ok hcondition (hc 0 _ (Nat.succ_pos _) .zero (R.refl _))
    have hfirst := R.trans hm₁ (R.holds_of_ok hbody
      (hb 0 _ v m₁ (Nat.succ_pos _) .zero hcondition usable htrue hm₁))
    refine R.trans hfirst (ih (fun k m₂ hk before hm₂ => ?_)
      fun k m₂ v' m₃ hk before hv usable' htrue' hm₃ => ?_)
    · exact hc (k + 1) m₂ (Nat.succ_lt_succ hk) (.succ first before) (R.trans hfirst hm₂)
    · exact hb (k + 1) m₂ v' m₃ (Nat.succ_lt_succ hk) (.succ first before) hv usable' htrue'
        (R.trans hfirst hm₃)

end

/-! ## Parts of a node -/

namespace Node

/-- The parts that are evaluated in the same scope as the node: the body of a function is not. -/
def inner : Node → List Node
  | function .. => []
  | node => node.parts

theorem mem_parts_of_mem_inner {part node : Node} (h : part ∈ node.inner) : part ∈ node.parts := by
  cases node with
  | function => cases h
  | _ => exact h

end Node

section

variable {run : Evaluator} {scope : Nat} {node : Node} {m m' : Machine}

/-- The parts that a node evaluates are in its scope. -/
theorem Performs.mem_inner {run : Evaluator} {scope scope' : Nat} {node part : Node}
    {pending : Pending} {m m' : Machine}
    (h : Performs run scope node m pending (.node part scope') m') :
    part ∈ node.inner ∧ scope' = scope := by
  cases h with
  | inside entered =>
    refine ⟨?_, rfl⟩
    cases entered <;> simp [Node.inner, Node.parts]
  | _ => simp [Node.inner, Node.parts]

/-- Every activity that a node performs keeps to a change, if the machine before it does. -/
def KeepsWithin (R : Change) (run : Evaluator) (scope : Nat) (node : Node) (m : Machine) : Prop :=
  ∀ pending activity m₁, Performs run scope node m pending activity m₁ →
    R.Holds m m₁ → R.Holds m₁ ((activity.perform run).after m₁)

namespace KeepsWithin

variable {m₁ : Machine} {t : Token}

/-- The machine behind the value of a part. -/
theorem operand {pending : Pending} {e : Node} {v : Value} (h : KeepsWithin R run scope node m)
    (hpart : Performs run scope node m pending (.node e scope) m₁) (hm₁ : R.Holds m m₁)
    (value : run e scope m₁ = .ok (some v) m') : R.Holds m m' :=
  R.trans hm₁ (R.holds_of_ok value (h _ _ m₁ hpart hm₁))

/-- The machine behind some statements of a program. -/
theorem program {earlier later : List Node}
    (h : KeepsWithin R run scope (.program (earlier ++ later)) m)
    (before : Passes (fun s => run s scope) earlier m m') : R.Holds m m' := by
  refine before.holds fun earlier' s later' m₁ hnodes hbefore => ?_
  subst hnodes
  rw [List.append_assoc, List.cons_append] at h
  exact h _ _ m₁ (.program hbefore)

/-- The machine behind some statements of a block. -/
theorem block {earlier later : List Node}
    (h : KeepsWithin R run scope (.block t (earlier ++ later)) m)
    (before : Passes (fun s => run s scope) earlier m m') : R.Holds m m' := by
  refine before.holds fun earlier' s later' m₁ hnodes hbefore => ?_
  subst hnodes
  rw [List.append_assoc, List.cons_append] at h
  exact h _ (.node s scope) m₁ (.inside (.block hbefore))

/-- The machine behind some rounds of a loop. -/
theorem rounds {c b : Node} {n limit : Nat} (h : KeepsWithin R run scope (.loop t c b) m)
    (before : Rounds (loopRound (run c scope) (run b scope)) n m m')
    (allowed : n + 1 + limit = roundLimit) : R.Holds m m' := by
  refine before.holds (fun k m₁ hk hbefore => ?_) fun k m₁ v m₂ hk hbefore hv husable htrue => ?_
  · exact h _ _ m₁ (.round hbefore (Nat.add_sub_of_le (by omega)))
  · exact h _ _ m₂ (.inside (.loop hbefore (Nat.add_sub_of_le (by omega)) hv husable htrue))

/-- The machine behind some arguments of a call. -/
theorem arguments {f : Node} {v : Value} {vs : List Value} {earlier later : List Node}
    (h : KeepsWithin R run scope (.call t f (earlier ++ later)) m)
    (callee : run f scope m = .ok (some v) m₁) (usable : ¬isError (some v))
    (before : Gives (fun e => run e scope) earlier m₁ vs m') : R.Holds m m' := by
  have hcallee := h.operand .callee (R.refl m) callee
  refine R.trans hcallee (before.holds fun earlier' e later' us m₁ hnodes hbefore hm₁ => ?_)
  subst hnodes
  rw [List.append_assoc, List.cons_append] at h
  exact h _ _ m₁ (.argument callee usable hbefore) (R.trans hcallee hm₁)

/-- The machine behind some elements of an array. -/
theorem elements {vs : List Value} {earlier later : List Node}
    (h : KeepsWithin R run scope (.array t (earlier ++ later)) m)
    (before : Gives (fun e => run e scope) earlier m vs m') : R.Holds m m' := by
  refine before.holds fun earlier' e later' us m₁ hnodes hbefore => ?_
  subst hnodes
  rw [List.append_assoc, List.cons_append] at h
  exact h _ _ m₁ (.element hbefore)

/-- The machine behind some pairs of a dictionary. -/
theorem files {earlier later : List (Node × Node)} {pairs : Pairs}
    (h : KeepsWithin R run scope (.dictionary t (earlier ++ later)) m)
    (hsame : ∀ {m m'}, m'.scopes = m.scopes → R.Holds m m')
    (before : Files (fun e => run e scope) [] earlier m pairs m') : R.Holds m m' := by
  refine before.holds hsame (fun earlier' k v later' pairs₁ m₁ hnodes hbefore => ?_)
    fun earlier' k v later' pairs₁ m₁ key hash m₂ hnodes hbefore hkey usable hhash => ?_
  · subst hnodes
    rw [List.append_assoc, List.cons_append] at h
    exact h _ _ m₁ (.key hbefore)
  · subst hnodes
    rw [List.append_assoc, List.cons_append] at h
    exact h _ _ m₂ (.entry hbefore hkey usable hhash)

end KeepsWithin

/-- **The machine before a part.** If every activity that a node performs keeps to a change, the
machine in which an activity starts does so too. -/
theorem Performs.holds {pending : Pending} {activity : Activity}
    (h : Performs run scope node m pending activity m')
    (hsame : ∀ {m m'}, m'.scopes = m.scopes → R.Holds m m')
    (hparts : KeepsWithin R run scope node m) : R.Holds m m' := by
  cases h with
  | inside entered =>
    cases entered with
    | content => exact R.refl m
    | ifThen condition => exact hparts.operand .ifThen (R.refl m) condition
    | ifElse condition | otherwise condition => exact hparts.operand .ifElse (R.refl m) condition
    | block before => exact hparts.block before
    | loop before allowed condition =>
      exact hparts.operand (.round before allowed) (hparts.rounds before allowed) condition
  | program before => exact hparts.program before
  | round before allowed => exact hparts.rounds before allowed
  | letBinding | constBinding | assignment | returning | ifThen | ifElse | operand | left | indexed
  | callee => exact R.refl m
  | right left => exact hparts.operand .left (R.refl m) left
  | index left => exact hparts.operand .indexed (R.refl m) left
  | argument callee usable before => exact hparts.arguments callee usable before
  | call callee usable arguments =>
    exact KeepsWithin.arguments (by rwa [List.append_nil]) callee usable arguments
  | element before => exact hparts.elements before
  | key before => exact hparts.files hsame before
  | entry before key => exact hparts.operand (.key before) (hparts.files hsame before) key

/-- Evaluates nodes as `run` does, but halts in front of a node that does not keep to `R`. -/
noncomputable def Evaluator.guarded (R : Change) (run : Evaluator) : Evaluator :=
  fun part scope m =>
    open Classical in
    if R.Holds m ((run part scope).after m) then run part scope m else .error .endless m

theorem Evaluator.guarded_eq {part : Node} (h : R.Holds m ((run part scope).after m)) :
    guarded R run part scope m = run part scope m := by
  rw [guarded, if_pos h]

theorem Keeps.guarded (part : Node) (scope : Nat) : Keeps R (run.guarded R part scope) := by
  intro m
  by_cases h : R.Holds m ((run part scope).after m)
  · rw [Eval.after, Evaluator.guarded_eq h]
    exact h
  · rw [Eval.after, Evaluator.guarded, if_neg h]
    exact R.refl m

/-- A call keeps to a change of the scopes if the new scope and all nodes do. -/
theorem Keeps.applyFunction_of_addScope (hsame : ∀ {m m'}, m'.scopes = m.scopes → R.Holds m m')
    (hadd : ∀ s m, R.Holds m (Machine.addScope s m).2)
    (hrun : ∀ node scope, Keeps R (run node scope)) (f : Value) (vs : List Value) :
    Keeps R (Monkey.applyFunction run f vs) := by
  intro m
  exact (Tracks.applyFunction (R.carries_any hsame) rfl (fun _ _ _ _ => trivial)
    (fun _ _ => ⟨rfl, rfl, hadd _ m⟩) fun _ _ => (hrun _ _).tracks rfl).after.change

/-- A call with the guard: only the body can make a difference. -/
theorem applyFunction_guarded {f : Value} {vs : List Value}
    (hbody : ∀ i parameters body s bindings, f = .function i parameters body s →
      bindParameters [] parameters vs = .ok bindings →
      R.Holds (m.addScope ⟨some s, bindings⟩).2
        ((run body m.scopes.size).after (m.addScope ⟨some s, bindings⟩).2)) :
    applyFunction run f vs m = applyFunction (run.guarded R) f vs m := by
  cases f with
  | function i parameters body s =>
    cases hbind : bindParameters [] parameters vs with
    | error e => simp only [applyFunction, hbind]
    | ok bindings =>
      rw [applyFunction_ok m hbind, applyFunction_ok m hbind]
      refine Eval.bind_eq_bind _ ?_
      rw [Evaluator.guarded_eq (hbody i parameters body s bindings rfl hbind)]
  | _ => rfl

/-- **The machine behind a node.** If every part that a node performs keeps to a change of the
scopes, and so do the bodies of the functions that it calls, the node does so too, unless it sets a
name. -/
theorem holds_of_performs (hsame : ∀ {m m'}, m'.scopes = m.scopes → R.Holds m m')
    (hadd : ∀ s m, R.Holds m (Machine.addScope s m).2)
    (hset : node.setting? = none)
    (hnode : ∀ pending part s m₁, Performs run scope node m pending (.node part s) m₁ →
      R.Holds m₁ ((run part s).after m₁))
    (hbody : ∀ pending i parameters body s vs bindings m₁,
      Performs run scope node m pending (.call (.function i parameters body s) vs) m₁ →
      bindParameters [] parameters vs = .ok bindings →
      R.Holds (m₁.addScope ⟨some s, bindings⟩).2
        ((run body m₁.scopes.size).after (m₁.addScope ⟨some s, bindings⟩).2)) :
    R.Holds m ((evaluateWith run node scope).after m) := by
  -- the guard never halts in this run, and with it every part of any node keeps to the change
  have hguarded : evaluateWith run node scope m = evaluateWith (run.guarded R) node scope m := by
    refine evaluateWith_congr fun pending activity m₁ h => ?_
    cases activity with
    | node part s => exact (Evaluator.guarded_eq (hnode pending part s m₁ h)).symm
    | call f vs =>
      refine applyFunction_guarded fun i parameters body s bindings hf hbind => ?_
      subst hf
      exact hbody pending i parameters body s vs bindings m₁ h hbind
  have hkeeps : Keeps R (evaluateWith (run.guarded R) node scope) :=
    .node hsame (fun part => .guarded part scope) (.applyFunction_of_addScope hsame hadd .guarded)
      fun setting h => by rw [hset] at h; cases h
  have hm := hkeeps m
  rw [Eval.after, ← hguarded] at hm
  exact hm

end

/-! ## Nested activities -/

/-- What is nested in a nested activity is nested. -/
theorem Nested.trans {depth d d' : Nat} {activity activity' activity'' : Activity}
    {m m' m'' : Machine} {around around' : List (Nat × Pending)}
    (h : Nested depth activity m around d activity' m')
    (h' : Nested d activity' m' around' d' activity'' m'') :
    Nested depth activity m (around' ++ around) d' activity'' m'' := by
  induction h' with
  | self => exact h
  | part _ inner ih => exact .part ih inner
  | body _ bound ih => exact .body ih bound

/-- A statement that is evaluated in a scope with the depth `d + 1` comes to a value for the name
that it sets, in the machine `m'`. -/
structure Sets (d scope : Nat) (s : Node) (m : Machine) (setting : Setting) (v : Value)
    (m' : Machine) : Prop where
  statement : s.setting? = some setting
  expression : setting.value.isExpression
  value : evaluate d setting.value scope m = .ok (some v) m'
  usable : ¬isError (some v)

section

variable {d scope : Nat} {s : Node} {m m' : Machine} {setting : Setting} {v : Value}

/-- The statement then sets the name. -/
theorem evaluate_of_sets (h : Sets d scope s m setting v m') :
    evaluate (d + 1) s scope m = setting.apply scope v m' := by
  rw [evaluate, evaluateWith_of_setting? _ _ h.statement, withBound, if_pos h.expression]
  exact withValue_ok _ h.value h.usable

theorem Performs.of_setting? {run : Evaluator} (hsetting : s.setting? = some setting)
    (hvalue : setting.value.isExpression) :
    ∃ pending, Performs run scope s m pending (.node setting.value scope) m := by
  cases s with
  | letBinding =>
    cases hsetting
    exact ⟨_, .letBinding hvalue⟩
  | constBinding =>
    cases hsetting
    exact ⟨_, .constBinding hvalue⟩
  | assignment =>
    cases hsetting
    exact ⟨_, .assignment hvalue⟩
  | _ => cases hsetting

/-- What a statement that sets a name does: it evaluates its expression, and sets the name if that
comes to a value. -/
theorem holds_of_setting? (hsetting : s.setting? = some setting)
    (hexpression : setting.value.isExpression →
      R.Holds m ((evaluate d setting.value scope).after m))
    (hset : ∀ v m', Sets d scope s m setting v m' → R.Holds m' ((setting.apply scope v).after m')) :
    R.Holds m ((evaluate (d + 1) s scope).after m) := by
  rw [evaluate, evaluateWith_of_setting? _ _ hsetting, withBound]
  by_cases hvalue : setting.value.isExpression
  · rw [if_pos hvalue]
    refine R.holds_withValue (hexpression hvalue) fun v m' hv usable => ?_
    exact hset v m' ⟨hsetting, hvalue, hv, usable⟩
  · rw [if_neg hvalue]
    exact R.refl m

end

/-- The statements that a run executes keep to a change where they set a name. -/
def SetsWithin (R : Change) (depth : Nat) (activity : Activity) (m : Machine) : Prop :=
  ∀ around d s scope setting v m₁ m₂, Nested depth activity m around (d + 1) (.node s scope) m₁ →
    Sets d scope s m₁ setting v m₂ → R.Holds m₂ ((setting.apply scope v).after m₂)

theorem SetsWithin.of_nested {depth d : Nat} {activity activity' : Activity} {m m' : Machine}
    {around : List (Nat × Pending)} (h : SetsWithin R depth activity m)
    (hnested : Nested depth activity m around d activity' m') : SetsWithin R d activity' m' :=
  fun _ d s scope setting v m₁ m₂ hinner =>
    h _ d s scope setting v m₁ m₂ (hnested.trans hinner)

section

variable (hsame : ∀ {m m'}, m'.scopes = m.scopes → R.Holds m m')
  (hadd : ∀ s m, R.Holds m (Machine.addScope s m).2)
include hsame hadd

theorem holds_of_node {depth scope : Nat} {node : Node} {m : Machine}
    (h : SetsWithin R depth (.node node scope) m) :
    R.Holds m ((evaluate depth node scope).after m) := by
  induction depth generalizing node scope m with
  | zero => exact R.refl m
  | succ depth ih =>
    cases hsetting : node.setting? with
    | some setting =>
      refine holds_of_setting? hsetting (fun hvalue => ?_) fun v m' hsets => ?_
      · obtain ⟨pending, hpart⟩ := Performs.of_setting? hsetting hvalue
        exact ih (h.of_nested (.part .self hpart))
      · exact h [] depth node scope setting v m m' .self hsets
    | none =>
      refine holds_of_performs hsame hadd hsetting (fun pending part s m₁ hpart => ?_) ?_
      · exact ih (h.of_nested (.part .self hpart))
      · intro pending i parameters body s vs bindings m₁ hcall bound
        exact ih (h.of_nested (.body (.part .self hcall) bound))

theorem holds_of_activity {depth : Nat} {activity : Activity} {m : Machine}
    (h : SetsWithin R depth activity m) :
    R.Holds m ((activity.perform (evaluate depth)).after m) := by
  cases activity with
  | node part scope => exact holds_of_node hsame hadd h
  | call f vs =>
    have hguarded : applyFunction (evaluate depth) f vs m =
        applyFunction ((evaluate depth).guarded R) f vs m := by
      refine applyFunction_guarded fun i parameters body s bindings hf hbind => ?_
      subst hf
      exact holds_of_node hsame hadd (h.of_nested (.body .self hbind))
    have hkeeps : Keeps R (applyFunction ((evaluate depth).guarded R) f vs) :=
      .applyFunction_of_addScope hsame hadd .guarded f vs
    have hm := hkeeps m
    rw [Eval.after, ← hguarded] at hm
    exact hm

/-- **Scopes change where names are set.** At every moment of a run, the machine has changed no more
than a change of the scopes allows, if that allows new scopes and all that the run sets. -/
theorem holds_of_nested {depth d : Nat} {activity activity' : Activity} {m m' : Machine}
    {around : List (Nat × Pending)} (h : SetsWithin R depth activity m)
    (hnested : Nested depth activity m around d activity' m') :
    R.Holds m m' ∧ R.Holds m' ((activity'.perform (evaluate d)).after m') := by
  refine ⟨?_, holds_of_activity hsame hadd (h.of_nested hnested)⟩
  induction hnested with
  | self => exact R.refl m
  | part outer inner ih =>
    refine R.trans ih (inner.holds hsame fun pending activity m₁ hpart _ => ?_)
    exact holds_of_activity hsame hadd (h.of_nested (.part outer hpart))
  | body _ _ ih => exact R.trans ih (hadd _ _)

end

end Monkey
