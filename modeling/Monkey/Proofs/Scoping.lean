import Mathlib
import Monkey.Proofs.Stored

/-!
# Scopes and the chains they form

A scope refers to the scope around it by its number, and a function refers to the scope in which it
was written. In every machine that evaluation comes to, these references are good: the scope around
a scope was made before it, only the global scope has none around it, and the scope of every function
that is bound to a name is there (`Machine.WellScoped`).

So the scopes around a scope form a finite chain (`Machine.Chain`) that ends with the global scope,
and a name has the value that the nearest scope of the chain gives it (`chains_of_session`).
-/

namespace Monkey

/-! ## Well-scoped machines -/

/-- A function was written in one of the first `n` scopes. -/
def Value.ScopeBelow (n : Nat) : Value → Prop
  | function _ _ _ scope => scope < n
  | _ => True

namespace Value

/-- Only a function has a scope. -/
theorem scopeBelow_of_isPlain {n : Nat} (v : Value) (hv : v.isPlain) : v.ScopeBelow n := by
  cases v with
  | function => cases hv
  | _ => trivial

theorem scopeBelow_of_isReturned {n : Nat} (v : Value) (hv : v.isReturned) : v.ScopeBelow n := by
  cases v with
  | returned => trivial
  | _ => cases hv

theorem ScopeBelow.mono {n n' : Nat} {v : Value} (hn : n ≤ n') (h : v.ScopeBelow n) :
    v.ScopeBelow n' := by
  cases v with
  | function => exact Nat.lt_of_lt_of_le h hn
  | _ => trivial

end Value

namespace Machine

/-- The scopes of all functions that a value contains are there. -/
def Knows (m : Machine) (v : Value) : Prop := v.Every (Value.ScopeBelow m.scopes.size)

/-- The scope around a scope was made before it, only the global scope has none around it, and the
scopes of all functions that are bound to names are there. -/
structure WellScoped (m : Machine) : Prop where
  global : globalScope < m.scopes.size
  outermost : ∀ i (s : Scope), m.scopes[i]? = some s → s.outer = none → i = globalScope
  outer : ∀ i (s : Scope) j, m.scopes[i]? = some s → s.outer = some j → j < i
  functions : m.Binds fun b => m.Knows b.value

variable {m m' : Machine} {v : Value}

/-- Scopes are added and never removed, so what is known stays known. -/
theorem Knows.mono (hsize : m.scopes.size ≤ m'.scopes.size) (h : m.Knows v) : m'.Knows v :=
  fun w hw => (h w hw).mono hsize

/-- An error refers to no scope. -/
theorem Knows.of_result (h : Result m.Knows (some v)) : m.Knows v := by
  rcases h v rfl with herror | hv
  · cases v with
    | error => exact Value.every_iff.mpr ⟨trivial, List.forall_mem_nil _⟩
    | _ => cases herror
  · exact hv

theorem Binds.mono {P Q : Binding → Prop} (h : ∀ b, P b → Q b) (hm : m.Binds P) : m.Binds Q :=
  fun s hs b hb => h b (hm s hs b hb)

/-- What a declaration leaves of a scope. -/
theorem getElem?_declare {i scope : Nat} {s : Scope} {b : Binding}
    (h : (m.declare scope b).scopes[i]? = some s) :
    ∃ s₀, m.scopes[i]? = some s₀ ∧ s.outer = s₀.outer := by
  rw [Machine.declare, Array.getElem?_modify] at h
  split at h
  · obtain ⟨s₀, hs₀, rfl⟩ := Option.map_eq_some_iff.mp h
    exact ⟨s₀, hs₀, rfl⟩
  · exact ⟨s, h, rfl⟩

namespace WellScoped

/-- At the start there is one scope, and it has none around it. -/
theorem start (input : List Incoming) : (Machine.start input).WellScoped where
  global := Nat.one_pos
  outermost i s hs _ := by
    rw [Machine.start] at hs
    obtain ⟨hi, -⟩ := Array.getElem?_eq_some_iff.mp hs
    exact Nat.lt_one_iff.mp hi
  outer i s j hs hj := by
    rw [Machine.start] at hs
    obtain ⟨hi, rfl⟩ := Array.getElem?_eq_some_iff.mp hs
    obtain rfl := Nat.lt_one_iff.mp hi
    cases hj
  functions := by simp [Binds, Machine.start]

theorem of_scopes_eq (h : m'.scopes = m.scopes) (hm : m.WellScoped) : m'.WellScoped := by
  obtain ⟨scopes, _, _, _⟩ := m
  obtain ⟨_, _, _, _⟩ := m'
  cases h
  exact ⟨hm.global, hm.outermost, hm.outer, hm.functions⟩

/-- A value that is known can be bound. -/
theorem declare {b : Binding} (scope : Nat) (hb : m.Knows b.value) (hm : m.WellScoped) :
    (m.declare scope b).WellScoped := by
  have hsize : (m.declare scope b).scopes.size = m.scopes.size := Array.size_modify
  refine ⟨hsize ▸ hm.global, fun i s hs hnone => ?_, fun i s j hs hj => ?_, ?_⟩
  · obtain ⟨s₀, hs₀, houter⟩ := getElem?_declare hs
    exact hm.outermost i s₀ hs₀ (houter ▸ hnone)
  · obtain ⟨s₀, hs₀, houter⟩ := getElem?_declare hs
    exact hm.outer i s₀ j hs₀ (houter ▸ hj)
  · exact (hm.functions.declare scope hb).mono fun _ => .mono (Nat.le_of_eq hsize.symm)

/-- A new scope is inside one that is there already. -/
theorem addScope {j : Nat} {bindings : List Binding} (hj : j < m.scopes.size)
    (hbindings : ∀ b ∈ bindings, m.Knows b.value) (hm : m.WellScoped) :
    (m.addScope ⟨some j, bindings⟩).2.WellScoped := by
  have hsize : m.scopes.size ≤ (m.addScope ⟨some j, bindings⟩).2.scopes.size :=
    (Preserves.addScope _ m).size
  have hcases {i : Nat} {s : Scope}
      (h : (m.addScope ⟨some j, bindings⟩).2.scopes[i]? = some s) :
      m.scopes[i]? = some s ∨ i = m.scopes.size ∧ s.outer = some j := by
    rw [Machine.addScope, Array.getElem?_push] at h
    split at h
    · next hi =>
      cases h
      exact .inr ⟨hi, rfl⟩
    · exact .inl h
  refine ⟨Nat.lt_of_lt_of_le hm.global hsize, fun i s hs hnone => ?_, fun i s k hs hk => ?_, ?_⟩
  · rcases hcases hs with hs | ⟨-, houter⟩
    · exact hm.outermost i s hs hnone
    · rw [houter] at hnone
      cases hnone
  · rcases hcases hs with hs | ⟨rfl, houter⟩
    · exact hm.outer i s k hs hk
    · rw [houter] at hk
      cases hk
      exact hj
  · exact (hm.functions.addScope hbindings).mono fun _ => .mono hsize

end WellScoped

end Machine

/-! ## Evaluation keeps machines well scoped -/

/-- A well-scoped machine stays well scoped, and scopes are only added. -/
def scoping : Change where
  Holds m m' := (m.WellScoped → m'.WellScoped) ∧ m.scopes.size ≤ m'.scopes.size
  refl _ := ⟨id, Nat.le_refl _⟩
  trans h₁ h₂ := ⟨fun hm => h₂.1 (h₁.1 hm), Nat.le_trans h₁.2 h₂.2⟩

theorem scoping_of_scopes_eq {m m' : Machine} (h : m'.scopes = m.scopes) : scoping.Holds m m' :=
  ⟨.of_scopes_eq h, Nat.le_of_eq (by rw [h])⟩

/-- The invariant of scopes: the machine is well scoped, nodes are evaluated in scopes that are there,
and so are the scopes of functions. -/
def wellScoped : Invariant where
  OfMachine := Machine.WellScoped
  OfValue m := Value.ScopeBelow m.scopes.size
  OfNode m _ scope := scope < m.scopes.size
  change := scoping
  keeps h := h.1
  same := scoping_of_scopes_eq
  plain _ := Value.scopeBelow_of_isPlain
  lasts _ _ _ h := Value.ScopeBelow.mono h.2
  later h hscope := Nat.lt_of_lt_of_le hscope h.2
  part h _ := h
  kept _ _ _ _ := Value.scopeBelow_of_isReturned
  lookup hm h := by
    obtain ⟨b, hb, rfl⟩ := hm.functions.lookup? h
    exact hb
  declare _ hb := ⟨.declare _ hb, (Preserves.declare _ _ _).size⟩
  function _ h := h
  addScope _ hscope hbindings := ⟨.addScope hscope hbindings, (Preserves.addScope _ _).size⟩
  body _ _ := by simp [Machine.addScope]

/-! ## The chain of a scope -/

/-- The scopes around a scope, from itself outwards. -/
inductive Machine.Chain (m : Machine) : Nat → List Scope → Prop where
  | last (scope : m.scopes[i]? = some s) (outer : s.outer = none) : Chain m i [s]
  | link (scope : m.scopes[i]? = some s) (outer : s.outer = some j) (more : Chain m j chain) :
      Chain m i (s :: chain)

/-- The binding of a name in the nearest scope of a chain that binds it. -/
def NearestBinding (name : String) (chain : List Scope) (b : Binding) : Prop :=
  ∃ nearer s farther, chain = nearer ++ s :: farther ∧ s.find? name = some b ∧
    ∀ s' ∈ nearer, s'.find? name = none

namespace Machine.WellScoped

variable {m : Machine} {i : Nat} {chain : List Scope}

/-- Each scope is inside an earlier one, so the way out comes to an end. -/
theorem exists_chain (hm : m.WellScoped) (hi : i < m.scopes.size) : ∃ chain, m.Chain i chain := by
  -- the scope around a scope has a smaller number
  induction i using Nat.strongRecOn with
  | ind i ih =>
    have hs : m.scopes[i]? = some m.scopes[i] := Array.getElem?_eq_getElem hi
    cases houter : m.scopes[i].outer with
    | none => exact ⟨_, .last hs houter⟩
    | some j =>
      have hj : j < i := hm.outer i _ j hs houter
      obtain ⟨chain, hchain⟩ := ih j hj (Nat.lt_trans hj hi)
      exact ⟨_, .link hs houter hchain⟩

/-- A name is looked up from scope to scope. -/
theorem lookup?_eq_findSome? (hm : m.WellScoped) (h : m.Chain i chain) (name : String) :
    m.lookup? name i = chain.findSome? fun s => (s.find? name).map Binding.value := by
  induction h with
  | last scope outer =>
    rw [lookup?, scope]
    simp only [List.findSome?_cons, List.findSome?_nil, outer]
    cases Scope.find? _ name <;> rfl
  | link scope outer _ ih =>
    rw [lookup?, scope]
    simp only [List.findSome?_cons, outer, if_pos (hm.outer _ _ _ scope outer), ih]
    cases Scope.find? _ name <;> rfl

/-- The nearest binding is found. -/
theorem lookup?_eq_some_iff (hm : m.WellScoped) (h : m.Chain i chain) (name : String) (v : Value) :
    m.lookup? name i = some v ↔ ∃ b, NearestBinding name chain b ∧ b.value = v := by
  rw [hm.lookup?_eq_findSome? h name, List.findSome?_eq_some_iff]
  simp only [Option.map_eq_some_iff, Option.map_eq_none_iff, NearestBinding]
  constructor
  · rintro ⟨nearer, s, farther, hchain, ⟨b, hb, hv⟩, hnearer⟩
    exact ⟨b, ⟨nearer, s, farther, hchain, hb, hnearer⟩, hv⟩
  · rintro ⟨b, ⟨nearer, s, farther, hchain, hb, hnearer⟩, hv⟩
    exact ⟨nearer, s, farther, hchain, ⟨b, hb, hv⟩, hnearer⟩

theorem lookup?_eq_none_iff (hm : m.WellScoped) (h : m.Chain i chain) (name : String) :
    m.lookup? name i = none ↔ ∀ s ∈ chain, s.find? name = none := by
  rw [hm.lookup?_eq_findSome? h name, List.findSome?_eq_none_iff]
  simp only [Option.map_eq_none_iff]

end Machine.WellScoped

/-- **Scope chains stay well founded.** After any programs, and at any moment of evaluating one
more, the machine is well scoped, and the functions that an activity gives have scopes that are
there. So every scope has a finite chain of scopes around it: a name has the value that the nearest
scope of the chain gives it, and no value exactly if no scope of the chain binds it. -/
theorem chains_of_session {input : List Incoming} {depth d : Nat} {node : Node} {activity : Activity}
    {m m' : Machine} {around : List (Nat × Pending)} (hsession : Session (fun _ => True) input m)
    (hnested : Nested depth (.node node Machine.globalScope) m around d activity m') :
    (∀ state ∈ [m', (activity.perform (evaluate d)).after m'], state.WellScoped ∧
      ∀ i < state.scopes.size, ∃ chain, state.Chain i chain ∧ ∀ name,
        (∀ v, state.lookup? name i = some v ↔ ∃ b, NearestBinding name chain b ∧ b.value = v) ∧
        (state.lookup? name i = none ↔ ∀ s ∈ chain, s.find? name = none)) ∧
    ∀ v m'', activity.perform (evaluate d) m' = .ok (some v) m'' → m''.Knows v := by
  have hstart : wellScoped.OfMachine (.start input) := Machine.WellScoped.start input
  obtain ⟨hm', -, hperform⟩ := Invariant.of_session hstart
    (fun hm _ => Machine.WellScoped.global hm) hsession trivial hnested
  refine ⟨fun state hstate => ?_, fun v m'' hv => ?_⟩
  · have hstate : state.WellScoped := by
      rcases List.mem_pair.mp hstate with rfl | rfl
      · exact hm'
      · exact hperform.keeps.1 hm'
    refine ⟨hstate, fun i hi => ?_⟩
    obtain ⟨chain, hchain⟩ := hstate.exists_chain hi
    exact ⟨chain, hchain, fun name =>
      ⟨hstate.lookup?_eq_some_iff hchain name, hstate.lookup?_eq_none_iff hchain name⟩⟩
  · refine .of_result ((hperform.gives hv).mono fun _ => ?_)
    exact Fits.every fun _ => Value.scopeBelow_of_isReturned

/-- A function is made inside a call:
`let make = fn(a) { fn(b) { a + b } }; let a = 7; let add = make(3);`. -/
def makesAdder : Machine :=
  (evaluate 20
    (parse "let make = fn(a) \x7b fn(b) \x7b a + b \x7d \x7d; let a = 7; let add = make(3);").tree
    Machine.globalScope).after (.start [])

/-- The program `add(4)`. -/
def callsAdder : Node := (parse "add(4)").tree

/-- The machine behind both. -/
def afterAdder : Machine := (evaluate 20 callsAdder Machine.globalScope).after makesAdder

/-- In the scope of the call of `add`, the nearest `a` is that of the call of `make`. -/
theorem chains_of_session_adder :
    Session (fun _ => True) [] makesAdder ∧ afterAdder.WellScoped ∧
    ∃ chain, afterAdder.Chain 2 chain ∧ (∃ b, NearestBinding "a" chain b ∧ b.value = .int 3) ∧
      ∀ s ∈ chain, s.find? "c" = none := by
  obtain ⟨hsize, ha, hc⟩ : 2 < afterAdder.scopes.size ∧
      afterAdder.lookup? "a" 2 = some (.int 3) ∧ afterAdder.lookup? "c" 2 = none := by
    refine ⟨?_, ?_, ?_⟩
    all_goals cbv
  have hsession : Session (fun _ => True) [] makesAdder := .next .start trivial 20
  have hself : Nested 20 (.node callsAdder Machine.globalScope) makesAdder [] 20
      (.node callsAdder Machine.globalScope) makesAdder := .self
  obtain ⟨hwell, hchains⟩ :=
    (chains_of_session hsession hself).1 afterAdder (List.mem_cons_of_mem _ List.mem_cons_self)
  obtain ⟨chain, hchain, hlookup⟩ := hchains 2 hsize
  refine ⟨hsession, hwell, chain, hchain, ?_, ?_⟩
  · exact ((hlookup "a").1 (.int 3)).mp ha
  · exact (hlookup "c").2.mp hc

end Monkey
