import Mathlib
import Monkey.Proofs.Moments
import Monkey.Proofs.Stored

/-!
# Constants

An assignment to a constant is refused, wherever it stands. A declaration is not: `let` and `const`
bind a name of the scope whatever it was before, so that a constant can be declared anew.

`staysConstant_iff` says when a constant stays what it is, over any programs that are evaluated in
its scope: exactly if no `let` and no `const` for its name that is executed in that scope comes to a
value. Calls do not matter, since their bodies have scopes of their own; so it is enough that no
declaration of the name stands in the programs outside of functions
(`neverDeclared_of_not_declares`).
-/

namespace Monkey

/-! ## One binding of a scope -/

/-- The binding of a name in a scope itself. -/
def Machine.binding? (m : Machine) (scope : Nat) (name : String) : Option Binding :=
  (m.scopes[scope]?).bind (·.find? name)

/-- A declaration is found under its own name only. -/
theorem Scope.find?_declare_of_ne {b : Binding} {name : String} (h : b.name ≠ name) (s : Scope) :
    (s.declare b).find? name = s.find? name := by
  obtain ⟨_, bindings⟩ := s
  simp only [find?, declare]
  induction bindings with
  | nil => simp [put, h]
  | cons first rest ih =>
    rw [put]
    split
    · next hfirst => simp [hfirst, h]
    · simp only [List.find?_cons, ih]

namespace Machine

variable {m : Machine} {scope scope' : Nat} {name : String} {b b' : Binding}

/-- A declaration of another name, or in another scope, leaves a binding as it is. -/
theorem binding?_declare_of_ne (h : scope' = scope → b'.name ≠ name) :
    (m.declare scope' b').binding? scope name = m.binding? scope name := by
  rw [binding?, declare, Array.getElem?_modify]
  split
  · next hscope =>
    rw [binding?]
    cases m.scopes[scope]? with
    | none => rfl
    | some s => exact Scope.find?_declare_of_ne (h hscope) s
  · rfl

theorem binding?_addScope (s : Scope) (h : m.binding? scope name = some b) :
    (m.addScope s).2.binding? scope name = some b := by
  obtain ⟨s₀, hs₀, hb⟩ := Option.bind_eq_some_iff.mp h
  obtain ⟨hscope, -⟩ := Array.getElem?_eq_some_iff.mp hs₀
  refine Option.bind_eq_some_iff.mpr ⟨s₀, ?_, hb⟩
  rw [← hs₀]
  exact (Preserves.addScope s m).scopes scope hscope id

/-- A constant is not assigned to. -/
theorem assign_of_constant (h : m.binding? scope name = some b) (hb : b.constant) (v : Value) :
    m.assign scope name v = (.constant, m) := by
  rw [binding?] at h
  rw [assign, h]
  exact if_pos hb

/-- A name that is not bound in the scope is not assigned to. -/
theorem assign_of_unbound (h : m.binding? scope name = none) (v : Value) :
    m.assign scope name v = (.unknown, m) := by
  rw [binding?] at h
  rw [assign, h]

end Machine

/-- The binding of a name in a scope stays what it is. -/
def keepsBinding (scope : Nat) (b : Binding) : Change where
  Holds m m' := m.binding? scope b.name = some b → m'.binding? scope b.name = some b
  refl _ := id
  trans h₁ h₂ h := h₂ (h₁ h)

/-- Whether a statement declares its name, instead of assigning to it. -/
def Setting.declares : Setting → Bool
  | declare .. => true
  | assign .. => false

section

variable {scope : Nat} {b : Binding}

theorem keepsBinding_of_scopes_eq {m m' : Machine} (h : m'.scopes = m.scopes) :
    (keepsBinding scope b).Holds m m' := by
  intro hm
  rw [Machine.binding?, h]
  exact hm

/-- A binding is kept by declarations of other names. -/
theorem keepsBinding_declare {m : Machine} {scope' : Nat} {b' : Binding}
    (h : scope' = scope → b'.name ≠ b.name) :
    (keepsBinding scope b).Holds m (m.declare scope' b') := by
  intro hm
  rw [Machine.binding?_declare_of_ne h]
  exact hm

/-- A constant is changed by nothing but a declaration of its name in its scope. -/
theorem keepsBinding_set (hb : b.constant) {setting : Setting} {scope' : Nat}
    (h : scope' = scope → setting.name = b.name → ¬setting.declares) (v : Value) (m : Machine) :
    (keepsBinding scope b).Holds m ((setting.apply scope' v).after m) := by
  cases setting with
  | declare constant name e =>
    show (keepsBinding scope b).Holds m (m.declare scope' ⟨name, constant, v⟩)
    exact keepsBinding_declare fun hscope hname => h hscope hname rfl
  | assign name e =>
    have hassign : (keepsBinding scope b).Holds m (m.assign scope' name v).2 := by
      intro hm
      by_cases hsame : scope' = scope ∧ name = b.name
      · obtain ⟨rfl, rfl⟩ := hsame
        rw [Machine.assign_of_constant hm hb]
        exact hm
      · rw [Machine.assign]
        split
        · exact hm
        · split
          · exact hm
          · exact keepsBinding_declare (fun hscope hname => hsame ⟨hscope, hname⟩) hm
    refine (keepsBinding scope b).holds_bind hassign fun result m' _ => ?_
    cases result <;> exact (keepsBinding scope b).refl m'

end

section

variable {m : Machine} {scope : Nat} {name : String}

theorem modifyGet_assign {result : Assigned} {v : Value}
    (h : m.assign scope name v = (result, m)) :
    (modifyGet (Machine.assign scope name v) : Eval Assigned) m = .ok result m := by
  show EStateM.Result.ok (m.assign scope name v).1 (m.assign scope name v).2 = _
  rw [h]

/-- The assignment gives an error and changes nothing. -/
theorem assignName_of_constant {b : Binding} (h : m.binding? scope name = some b) (hb : b.constant)
    (v : Value) : assignName scope name v m = .ok (some (.error (.constantAssigned name))) m :=
  Eval.bind_ok _ (modifyGet_assign (Machine.assign_of_constant h hb v))

/-- An assignment to a name that the scope itself does not bind. -/
theorem evaluate_of_sets_unbound {d : Nat} {s : Node} {setting : Setting} {v : Value}
    {m₁ : Machine} (h : Sets d scope s m₁ setting v m) (hname : setting.name = name)
    (hassigns : ¬setting.declares) (hunbound : m.binding? scope name = none) :
    evaluate (d + 1) s scope m₁ = .ok (some (.error (.unknownName name))) m := by
  rw [evaluate_of_sets h]
  cases setting with
  | declare => exact absurd rfl hassigns
  | assign x e =>
    obtain rfl : x = name := hname
    exact Eval.bind_ok _ (modifyGet_assign (Machine.assign_of_unbound hunbound v))

end

/-! ## Programs one after the other -/

/-- The machine behind programs that are evaluated one after the other in a scope, each with a depth
of its own. -/
def runAll (scope : Nat) (programs : List (Nat × Node)) (m : Machine) : Machine :=
  programs.foldl (fun m program => (evaluate program.1 program.2 scope).after m) m

/-- The evaluation of programs one after the other comes to an activity, from the machine `m'` on
and with the depth `d`. -/
def Occurs (scope : Nat) (programs : List (Nat × Node)) (m : Machine) (d : Nat)
    (activity : Activity) (m' : Machine) : Prop :=
  ∃ earlier depth node later around, programs = earlier ++ (depth, node) :: later ∧
    Nested depth (.node node scope) (runAll scope earlier m) around d activity m'

/-- A constant stays what it is, whatever is evaluated and behind all of it. A statement of its
scope that comes to a value for it gives an error and nothing else, and so does an assignment in
another scope that does not bind the name itself. -/
structure StaysConstant (scope : Nat) (b : Binding) (programs : List (Nat × Node))
    (m : Machine) : Prop where
  during : ∀ d activity m', Occurs scope programs m d activity m' →
    m'.binding? scope b.name = some b ∧
      ((activity.perform (evaluate d)).after m').binding? scope b.name = some b
  behind : (runAll scope programs m).binding? scope b.name = some b
  refused : ∀ d s setting v m₁ m₂, Occurs scope programs m (d + 1) (.node s scope) m₁ →
    Sets d scope s m₁ setting v m₂ → setting.name = b.name →
      evaluate (d + 1) s scope m₁ = .ok (some (.error (.constantAssigned b.name))) m₂
  elsewhere : ∀ d s i setting v m₁ m₂, Occurs scope programs m (d + 1) (.node s i) m₁ →
    Sets d i s m₁ setting v m₂ → setting.name = b.name → ¬setting.declares →
      m₂.binding? i b.name = none →
      evaluate (d + 1) s i m₁ = .ok (some (.error (.unknownName b.name))) m₂

/-- No declaration of the name that is executed in the scope comes to a value. -/
def NeverDeclared (scope : Nat) (name : String) (programs : List (Nat × Node))
    (m : Machine) : Prop :=
  ∀ d s setting v m₁ m₂, Occurs scope programs m (d + 1) (.node s scope) m₁ →
    Sets d scope s m₁ setting v m₂ → setting.name = name → ¬setting.declares

section

variable {scope : Nat} {programs : List (Nat × Node)} {m : Machine}

/-- What every program keeps to, the machine behind some of them does. -/
theorem holds_runAll {R : Change}
    (h : ∀ earlier depth node later, programs = earlier ++ (depth, node) :: later →
      R.Holds (runAll scope earlier m) ((evaluate depth node scope).after (runAll scope earlier m)))
    {earlier later : List (Nat × Node)} (hprograms : programs = earlier ++ later) :
    R.Holds m (runAll scope earlier m) := by
  induction earlier using List.reverseRecOn generalizing later with
  | nil => exact R.refl m
  | append_singleton earlier program ih =>
    rw [List.append_assoc, List.singleton_append] at hprograms
    rw [runAll, List.foldl_concat]
    exact R.trans (ih hprograms) (h earlier program.1 program.2 later hprograms)

/-- What a statement that occurs performs occurs as well. -/
theorem Occurs.part {d scope' : Nat} {s : Node} {pending : Pending} {activity : Activity}
    {m₁ m₂ : Machine} (h : Occurs scope programs m (d + 1) (.node s scope') m₁)
    (hpart : Performs (evaluate d) scope' s m₁ pending activity m₂) :
    Occurs scope programs m d activity m₂ := by
  obtain ⟨earlier, depth, node, later, around, hprograms, hnested⟩ := h
  exact ⟨earlier, depth, node, later, _, hprograms, .part hnested hpart⟩

namespace NeverDeclared

variable {b : Binding} (h : NeverDeclared scope b.name programs m) (hb : b.constant)
  (hbound : m.binding? scope b.name = some b)
include h hb

/-- No statement of the programs takes the constant away. -/
theorem setsWithin {earlier later : List (Nat × Node)} {depth : Nat} {node : Node}
    (hprograms : programs = earlier ++ (depth, node) :: later) :
    SetsWithin (keepsBinding scope b) depth (.node node scope) (runAll scope earlier m) := by
  intro around d s scope' setting v m₁ m₂ hnested hsets
  refine keepsBinding_set hb (fun hscope hname => ?_) v m₂
  subst hscope
  exact h d s setting v m₁ m₂ ⟨earlier, depth, node, later, around, hprograms, hnested⟩ hsets hname

include hbound

theorem binding?_runAll {earlier later : List (Nat × Node)}
    (hprograms : programs = earlier ++ later) :
    (runAll scope earlier m).binding? scope b.name = some b := by
  have hkeeps : (keepsBinding scope b).Holds m (runAll scope earlier m) :=
    holds_runAll (fun earlier depth node later hprograms => holds_of_node keepsBinding_of_scopes_eq
      (fun s _ => Machine.binding?_addScope s) (h.setsWithin hb hprograms)) hprograms
  exact hkeeps hbound

/-- **A constant is bound at every moment**, before and behind each activity. -/
theorem binding?_of_occurs {d : Nat} {activity : Activity} {m' : Machine}
    (hoccurs : Occurs scope programs m d activity m') :
    m'.binding? scope b.name = some b ∧
      ((activity.perform (evaluate d)).after m').binding? scope b.name = some b := by
  obtain ⟨earlier, depth, node, later, around, hprograms, hnested⟩ := hoccurs
  obtain ⟨hbefore, hafter⟩ := holds_of_nested keepsBinding_of_scopes_eq
    (fun s _ => Machine.binding?_addScope s) (h.setsWithin hb hprograms) hnested
  have hm' := hbefore (h.binding?_runAll hb hbound hprograms)
  exact ⟨hm', hafter hm'⟩

/-- An assignment to the constant is refused wherever it occurs. -/
theorem refused {d : Nat} {s : Node} {setting : Setting} {v : Value} {m₁ m₂ : Machine}
    (hoccurs : Occurs scope programs m (d + 1) (.node s scope) m₁)
    (hsets : Sets d scope s m₁ setting v m₂) (hname : setting.name = b.name) :
    evaluate (d + 1) s scope m₁ = .ok (some (.error (.constantAssigned b.name))) m₂ := by
  -- the constant is still there where the expression has its value
  obtain ⟨pending, hpart⟩ := Performs.of_setting? hsets.statement hsets.expression
  have hm₂ := (h.binding?_of_occurs hb hbound (hoccurs.part hpart)).2
  rw [Activity.perform, Eval.after_of_ok hsets.value] at hm₂
  rw [evaluate_of_sets hsets]
  cases setting with
  | declare => exact absurd rfl (h d s _ v m₁ m₂ hoccurs hsets hname)
  | assign x e =>
    obtain rfl : x = b.name := hname
    exact assignName_of_constant hm₂ hb v

end NeverDeclared

end

/-! ## Programs without a declaration of the name -/

namespace Node

/-- Whether a declaration of a name stands in a node, outside of all functions. -/
def declares (name : String) (node : Node) : Bool :=
  node.setting?.any (fun setting => setting.name = name && setting.declares) ||
    node.inner.attach.any fun ⟨part, _⟩ => part.declares name
termination_by sizeOf node
decreasing_by exact sizeOf_lt_of_mem_parts (mem_parts_of_mem_inner ‹_›)

/-- A tree declares a name in its node or in a part that shares its scope. -/
theorem not_declares_iff {name : String} {node : Node} :
    ¬node.declares name ↔
      (∀ setting, node.setting? = some setting → setting.name = name → ¬setting.declares) ∧
        ∀ part ∈ node.inner, ¬part.declares name := by
  rw [declares]
  cases node.setting? <;> simp

end Node

/-- Scopes are only added. -/
theorem size_le_of_nested {depth d : Nat} {activity activity' : Activity} {m m' : Machine}
    {around : List (Nat × Pending)} (h : Nested depth activity m around d activity' m') :
    m.scopes.size ≤ m'.scopes.size := by
  have hsets : SetsWithin (scopesBut fun _ => True) depth activity m :=
    fun _ _ _ _ setting v _ m₂ _ _ => (Keeps.set setting v m₂).mono fun _ _ => trivial
  have hadd (s : Scope) (m : Machine) : (scopesBut fun _ => True).Holds m (m.addScope s).2 :=
    (Preserves.addScope s m).mono fun _ _ => trivial
  exact (holds_of_nested Preserves.of_scopes_eq hadd hsets h).1.size

/-- A statement that is evaluated in the scope of a program is one of its inner parts. -/
theorem not_declares_of_nested {scope depth d : Nat} {name : String} {node : Node}
    {activity : Activity} {m m' : Machine} {around : List (Nat × Pending)}
    (hscope : scope < m.scopes.size) (hnode : ¬node.declares name)
    (h : Nested depth (.node node scope) m around d activity m') {s : Node}
    (hs : activity = .node s scope) : ¬s.declares name := by
  induction h generalizing s with
  | self =>
    cases hs
    exact hnode
  | part _ inner ih =>
    subst hs
    obtain ⟨hmem, rfl⟩ := inner.mem_inner
    exact (Node.not_declares_iff.mp (ih rfl)).2 s hmem
  | body outer _ _ =>
    -- the scope of a call is new
    injection hs with _ hnew
    exact absurd (size_le_of_nested outer) (by omega)

theorem neverDeclared_of_not_declares {scope : Nat} {name : String} {m : Machine}
    {programs : List (Nat × Node)} (hscope : scope < m.scopes.size)
    (h : ∀ program ∈ programs, ¬program.2.declares name) :
    NeverDeclared scope name programs m := by
  rintro d s setting v m₁ m₂ ⟨earlier, depth, node, later, around, hprograms, hnested⟩ hsets
  have hkeeps : (scopesBut (· = scope)).Holds m (runAll scope earlier m) :=
    holds_runAll (fun _ depth node _ _ => Keeps.evaluate depth node scope _) hprograms
  have hnode : ¬node.declares name := h (depth, node) (by simp [hprograms])
  have hs := not_declares_of_nested (Nat.lt_of_lt_of_le hscope hkeeps.size) hnode hnested rfl
  exact (Node.not_declares_iff.mp hs).1 setting hsets.statement

/-! ## When constants stay constant -/

/-- **When a constant stays constant.** A constant stays what it is over programs that are evaluated
in its scope, and whatever would change it gives an error, exactly if no declaration of its name that
is executed in this scope comes to a value. -/
theorem staysConstant_iff {scope : Nat} {name : String} {value : Value} {m : Machine}
    (hbound : m.binding? scope name = some ⟨name, true, value⟩) (programs : List (Nat × Node)) :
    StaysConstant scope ⟨name, true, value⟩ programs m ↔ NeverDeclared scope name programs m := by
  constructor
  · intro hstays d s setting v m₁ m₂ hoccurs hsets hname hdeclares
    have hrefused := hstays.refused d s setting v m₁ m₂ hoccurs hsets hname
    rw [evaluate_of_sets hsets] at hrefused
    cases setting with
    | declare => cases hrefused
    | assign => cases hdeclares
  · intro h
    refine ⟨fun d activity m' => ?_, ?_, fun d s setting v m₁ m₂ => ?_, ?_⟩
    · exact h.binding?_of_occurs rfl hbound
    · exact h.binding?_runAll rfl hbound (List.append_nil _).symm
    · exact h.refused rfl hbound
    · intro d s i setting v m₁ m₂ _ hsets hname hassigns hunbound
      exact evaluate_of_sets_unbound hsets hname hassigns hunbound

/-- The machine behind `const x = 1;`. -/
def bindsConstant : Machine :=
  (evaluate 20 (parse "const x = 1;").tree Machine.globalScope).after (.start [])

/-- The program `x = 2;`. -/
def assignsConstant : Node := (parse "x = 2;").tree

/-- The program
`let f = fn(n) { const x = n; x + 1 }; let y = 0; while (y < 2) { y = f(y); } [x, y]`. -/
def shadowsConstant : Node :=
  (parse ("let f = fn(n) \x7b const x = n; x + 1 \x7d; " ++
    "let y = 0; while (y < 2) \x7b y = f(y); \x7d [x, y]")).tree

/-- The assignment is refused, and the constants of the calls are others. -/
theorem staysConstant_shadowsConstant :
    bindsConstant.binding? Machine.globalScope "x" = some ⟨"x", true, .int 1⟩ ∧
    StaysConstant Machine.globalScope ⟨"x", true, .int 1⟩
      [(20, assignsConstant), (20, shadowsConstant)] bindsConstant ∧
    ∃ m, evaluate 20 assignsConstant Machine.globalScope bindsConstant =
      .ok (some (.error (.constantAssigned "x"))) m := by
  obtain ⟨hbound, hscope, herror⟩ :
      bindsConstant.binding? Machine.globalScope "x" = some ⟨"x", true, .int 1⟩ ∧
      Machine.globalScope < bindsConstant.scopes.size ∧
      evaluate 20 assignsConstant Machine.globalScope bindsConstant =
        .ok (some (.error (.constantAssigned "x")))
          ((evaluate 20 assignsConstant Machine.globalScope).after bindsConstant) := by
    refine ⟨?_, ?_, ?_⟩
    all_goals cbv
  have hassigns : ¬assignsConstant.declares "x" := by decide +kernel
  have hshadows : ¬shadowsConstant.declares "x" := by decide +kernel
  refine ⟨hbound, (staysConstant_iff hbound _).mpr ?_, _, herror⟩
  refine neverDeclared_of_not_declares hscope ?_
  exact List.forall_mem_cons.mpr ⟨hassigns, List.forall_mem_singleton.mpr hshadows⟩

/-- The program `let x = 2; x`. -/
def redeclaresConstant : Node := (parse "let x = 2; x").tree

/-- A constant is declared anew as a variable, and no error is given. -/
theorem not_staysConstant_redeclaresConstant :
    bindsConstant.binding? Machine.globalScope "x" = some ⟨"x", true, .int 1⟩ ∧
    ¬StaysConstant Machine.globalScope ⟨"x", true, .int 1⟩ [(20, redeclaresConstant)]
      bindsConstant ∧
    ∃ m, evaluate 20 redeclaresConstant Machine.globalScope bindsConstant = .ok (some (.int 2)) m ∧
      m.binding? Machine.globalScope "x" = some ⟨"x", false, .int 2⟩ := by
  obtain ⟨hbound, hvalue, hchanged⟩ :
      bindsConstant.binding? Machine.globalScope "x" = some ⟨"x", true, .int 1⟩ ∧
      evaluate 20 redeclaresConstant Machine.globalScope bindsConstant = .ok (some (.int 2))
        ((evaluate 20 redeclaresConstant Machine.globalScope).after bindsConstant) ∧
      ((evaluate 20 redeclaresConstant Machine.globalScope).after bindsConstant).binding?
        Machine.globalScope "x" = some ⟨"x", false, .int 2⟩ := by
    refine ⟨?_, ?_, ?_⟩
    all_goals cbv
  refine ⟨hbound, fun hstays => ?_, _, hvalue, hchanged⟩
  have hbehind : ((evaluate 20 redeclaresConstant Machine.globalScope).after
    bindsConstant).binding? Machine.globalScope "x" = some ⟨"x", true, .int 1⟩ := hstays.behind
  rw [hchanged] at hbehind
  cases hbehind

end Monkey
