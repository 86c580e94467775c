import Mathlib
import Monkey.Proofs.Invariant

/-!
# What is stored

Errors end the evaluation of everything around them, so none of them is ever bound to a name or put
into a container (`error_not_stored`).

Return wrappers are not treated like that. An `if` is an expression, and a `return` in one of its
branches makes a wrapper its value: bound to a name, passed to a function, put into a container or
returned once more, that wrapper is kept. In a program in which no such value is kept (`Node.tame`),
wrappers stay on their way out (`wrapper_not_stored`).

Both are one invariant, `Machine.Stores (Allowed lenient)`. The lenient one tolerates wrappers and
holds of all programs; the strict one holds of tame programs. It is kept because allowed nodes make no
other values than allowed ones (`Confines`).
-/

namespace Monkey

/-! ## Programs that keep no return wrapper -/

namespace Node

/-- Whether no part of a node, at any depth, keeps a value that can be a return wrapper. -/
def tame (node : Node) : Bool :=
  node.kept.all (fun e => !e.mayReturn) && node.parts.attach.all fun ⟨part, _⟩ => part.tame
termination_by sizeOf node
decreasing_by exact sizeOf_lt_of_mem_parts ‹_›

/-- A tree is tame if it keeps nothing that may be a wrapper, and its parts are tame. -/
theorem tame_iff {node : Node} :
    node.tame ↔ (∀ e ∈ node.kept, ¬e.mayReturn) ∧ ∀ part ∈ node.parts, part.tame := by
  rw [tame]
  simp

end Node

/-! ## What the bindings hold -/

/-- `p` holds of all values that are bound to names, and of all that they contain. -/
def Machine.Stores (p : Value → Prop) (m : Machine) : Prop :=
  ∀ s ∈ m.scopes, ∀ b ∈ s.bindings, b.value.Every p

/-- `P` holds of all bindings. -/
def Machine.Binds (P : Binding → Prop) (m : Machine) : Prop :=
  ∀ s ∈ m.scopes, ∀ b ∈ s.bindings, P b

namespace Machine.Binds

variable {P : Binding → Prop} {m m' : Machine}

theorem of_scopes_eq (h : m'.scopes = m.scopes) (hm : m.Binds P) : m'.Binds P := by
  unfold Binds
  rw [h]
  exact hm

/-- A declaration adds a binding or replaces one. -/
theorem declare {b : Binding} (scope : Nat) (hb : P b) (hm : m.Binds P) :
    (m.declare scope b).Binds P := by
  intro s hs b' hb'
  obtain ⟨i, hi⟩ := Array.mem_iff_getElem?.mp hs
  rw [Machine.declare, Array.getElem?_modify] at hi
  split at hi
  · obtain ⟨s₀, hs₀, rfl⟩ := Option.map_eq_some_iff.mp hi
    rcases Scope.mem_put hb' with rfl | hmem
    · exact hb
    · exact hm s₀ (Array.mem_of_getElem? hs₀) b' hmem
  · exact hm s (Array.mem_of_getElem? hi) b' hb'

/-- A new scope comes with its own bindings. -/
theorem addScope {s : Scope} (hs : ∀ b ∈ s.bindings, P b) (hm : m.Binds P) :
    (m.addScope s).2.Binds P := by
  intro s' hs'
  rcases Array.mem_push.mp hs' with hmem | rfl
  · exact hm s' hmem
  · exact hs

/-- What is found is bound. -/
theorem lookup? {name : String} {scope : Nat} {v : Value} (hm : m.Binds P)
    (h : m.lookup? name scope = some v) : ∃ b, P b ∧ b.value = v := by
  fun_induction Machine.lookup? m name scope with
  | case1 | case3 | case5 => cases h
  | case2 scope s hs b hb =>
    cases h
    exact ⟨b, hm s (Array.mem_of_getElem? hs) b (List.mem_of_find?_eq_some hb), rfl⟩
  | case4 _ _ _ _ _ _ _ ih => exact ih h

end Machine.Binds

namespace Machine.Stores

variable {p : Value → Prop} {m : Machine}

/-- At the start nothing is bound. -/
theorem start (input : List Incoming) : (Machine.start input).Stores p := by
  simp [Stores, Machine.start]

theorem mono {p' : Value → Prop} (h : ∀ v, p v → p' v) (hm : m.Stores p) : m.Stores p' :=
  fun s hs b hb v hv => h v (hm s hs b hb v hv)

theorem iff_binds : m.Stores p ↔ m.Binds fun b => b.value.Every p := Iff.rfl

theorem lookup? {name : String} {scope : Nat} {v : Value} (hm : m.Stores p)
    (h : m.lookup? name scope = some v) : v.Every p := by
  obtain ⟨b, hb, rfl⟩ := (iff_binds.mp hm).lookup? h
  exact hb

end Machine.Stores

/-! ## Values that are made -/

/-- Nodes with `N` make no values but those with `p`: plain values have it, functions are made of nodes
with `N`, and a return wrapper is not kept unless it has `p`. -/
structure Confines (N : Node → Prop) (p : Value → Prop) : Prop where
  plain : ∀ v, v.isPlain → p v
  part : ∀ {node part}, N node → part ∈ node.parts → N part
  kept : ∀ {node part}, N node → part ∈ node.kept → part.mayReturn → ∀ v, v.isReturned → p v
  function : ∀ {t parameters body} i scope, N (.function t parameters body) →
    p (.function i parameters body scope)
  body : ∀ {i parameters body scope}, p (.function i parameters body scope) → N body

namespace Confines

variable {N : Node → Prop} {p : Value → Prop}

/-- Then all values that are bound to names have `p`. -/
def invariant (h : Confines N p) : Invariant where
  OfMachine := Machine.Stores p
  OfValue _ := p
  OfNode _ node _ := N node
  change := keeping (Machine.Stores p)
  keeps hchange := hchange
  same hscopes := Machine.Binds.of_scopes_eq hscopes
  plain _ := h.plain
  lasts _ _ _ _ hv := hv
  later _ hnode := hnode
  part := h.part
  kept hnode hpart hmay _ := h.kept hnode hpart hmay
  lookup hm := hm.lookup?
  declare _ hb := Machine.Binds.declare _ hb
  function i := h.function i _
  addScope _ _ hbindings := Machine.Binds.addScope hbindings
  body _ := h.body

/-- **What is made, stored and passed on.** After programs with `N`, and at any moment of evaluating
one more, the values that are bound to names have `p`, and so have the arguments of a call; nodes that
are evaluated are nodes with `N`, and what an activity gives has `p`, but for errors and wrappers. -/
theorem of_session (h : Confines N p) {P : Node → Prop} (hP : ∀ node, P node → N node)
    {input : List Incoming} {depth d : Nat} {node : Node} {activity : Activity} {m m' : Machine}
    {around : List (Nat × Pending)} (hsession : Session P input m) (hnode : P node)
    (hnested : Nested depth (.node node Machine.globalScope) m around d activity m') :
    m'.Stores p ∧ ((activity.perform (evaluate d)).after m').Stores p ∧
    (∀ part scope, activity = .node part scope → N part) ∧
    (∀ f vs, activity = .call f vs → ∀ v ∈ vs, v.Every p) ∧
    ∀ v m'', activity.perform (evaluate d) m' = .ok (some v) m'' →
      v.OrError (Fits p activity.mayReturn) := by
  have hstart : h.invariant.OfMachine (.start input) := Machine.Stores.start input
  obtain ⟨hm', hactivity, hperform⟩ :=
    Invariant.of_session hstart (fun _ => hP _) hsession hnode hnested
  refine ⟨hm', hperform.keeps hm', ?_, ?_, fun v m'' hv => hperform.gives hv v rfl⟩
  · rintro part scope rfl
    exact hactivity
  · rintro f vs rfl
    exact hactivity.2

end Confines

/-! ## What may be kept -/

/-- A node that may be evaluated under the invariant: the strict one asks for a tame node. -/
def Node.Sound (lenient : Prop) (node : Node) : Prop := lenient ∨ node.tame

/-- A value that may be kept: no error, and no return wrapper unless the invariant is lenient. The
body of a function will be evaluated. -/
def Allowed (lenient : Prop) : Value → Prop
  | .error _ => False
  | .returned .. => lenient
  | .function _ _ body _ => body.Sound lenient
  | _ => True

section

variable {lenient : Prop}

namespace Node.Sound

variable {node e : Node}

theorem part (h : node.Sound lenient) (he : e ∈ node.parts) : e.Sound lenient :=
  h.imp_right fun htame => (tame_iff.mp htame).2 e he

theorem kept (h : node.Sound lenient) (he : e ∈ node.kept) : lenient ∨ ¬e.mayReturn :=
  h.imp_right fun htame => (tame_iff.mp htame).1 e he

end Node.Sound

/-- Plain values are allowed. -/
theorem allowed_of_isPlain (v : Value) (hv : v.isPlain) : Allowed lenient v := by
  cases v with
  | function | returned | error => cases hv
  | _ => trivial

theorem allowed_of_isReturned (h : lenient) (v : Value) (hv : v.isReturned) : Allowed lenient v := by
  cases v with
  | returned => exact h
  | _ => cases hv

/-- Sound nodes make no values but allowed ones. -/
theorem confines_sound (lenient : Prop) : Confines (Node.Sound lenient) (Allowed lenient) where
  plain := allowed_of_isPlain
  part := Node.Sound.part
  kept h hpart hmay := (h.kept hpart).elim allowed_of_isReturned (absurd hmay)
  function _ _ h := h.part List.mem_cons_self
  body h := h

/-! ## Errors and wrappers -/

/-- What is not allowed is at most a value itself. -/
theorem eq_of_contains {may : Bool} {v w : Value} (hv : v.OrError (Fits (Allowed lenient) may))
    (hw : v.Contains w) (hnot : ¬Allowed lenient w) : w = v := by
  cases hw with
  | self => rfl
  | part hu inside =>
    rcases hv with herror | hfits
    · cases v with
      | error e => cases hu
      | _ => cases herror
    · exact absurd (hfits.parts _ hu w inside) hnot

end

theorem not_isError_of_allowed {lenient : Prop} (v : Value) (h : Allowed lenient v) :
    ¬v.isError := by
  cases v with
  | error => exact h.elim
  | _ => exact Bool.false_ne_true

/-- Without leniency no wrapper is allowed. -/
theorem not_isReturned_of_allowed (v : Value) (h : Allowed False v) : ¬v.isReturned := by
  cases v with
  | returned => exact h.elim
  | _ => exact Bool.false_ne_true

/-- **Errors are never stored.** After any programs, and at any moment of evaluating one more, no
value that is bound to a name contains an error, and what an activity gives contains no error unless
it is one. -/
theorem error_not_stored {input : List Incoming} {depth d : Nat} {node : Node} {activity : Activity}
    {m m' : Machine} {around : List (Nat × Pending)} (hsession : Session (fun _ => True) input m)
    (hnested : Nested depth (.node node Machine.globalScope) m around d activity m') :
    m'.Stores (fun v => ¬v.isError) ∧
    ((activity.perform (evaluate d)).after m').Stores (fun v => ¬v.isError) ∧
    ∀ v m'', activity.perform (evaluate d) m' = .ok (some v) m'' →
      ∀ w, v.Contains w → w.isError → w = v := by
  obtain ⟨hm', hafter, -, -, hgives⟩ :=
    (confines_sound True).of_session (fun _ _ => .inl trivial) hsession trivial hnested
  refine ⟨hm'.mono not_isError_of_allowed, hafter.mono not_isError_of_allowed, ?_⟩
  intro v m'' hv w hw herror
  exact eq_of_contains (hgives v m'' hv) hw fun h => not_isError_of_allowed w h herror

/-- Two names are bound: `let f = fn(x) { [x, -x] }; let a = f(1);`. -/
def bindsPair : Machine :=
  (evaluate 20 (parse "let f = fn(x) \x7b [x, -x] \x7d; let a = f(1);").tree
    Machine.globalScope).after (.start [])

/-- The program `let b = push(a, f(true));`. -/
def failingArgument : Node := (parse "let b = push(a, f(true));").tree

/-- The error in `f(true)` is put into no array and bound to no name. -/
theorem error_not_stored_failingArgument :
    Session (fun _ => True) [] bindsPair ∧
    ∃ m, evaluate 20 failingArgument Machine.globalScope bindsPair =
      .ok (some (.error (.unknownPrefix "-" .boolean))) m ∧ m.Stores fun v => ¬v.isError := by
  have herror : evaluate 20 failingArgument Machine.globalScope bindsPair =
      .ok (some (.error (.unknownPrefix "-" .boolean)))
        ((evaluate 20 failingArgument Machine.globalScope).after bindsPair) := by cbv
  have hsession : Session (fun _ => True) [] bindsPair := .next .start trivial 20
  have hself : Nested 20 (.node failingArgument Machine.globalScope) bindsPair [] 20
      (.node failingArgument Machine.globalScope) bindsPair := .self
  exact ⟨hsession, _, herror, (error_not_stored hsession hself).2.1⟩

/-- Whether an activity opens the return wrapper that ends it: a program and a call do. -/
def Activity.opens : Activity → Bool
  | node (.program _) _ | call .. => true
  | _ => false

/-- A call and a program open the wrappers that they get. -/
theorem Activity.not_mayReturn_of_opens {activity : Activity} (h : activity.opens) :
    ¬activity.mayReturn := by
  cases activity with
  | call => exact Bool.false_ne_true
  | node part scope =>
    cases part with
    | program => simp [mayReturn, Node.mayReturn]
    | _ => cases h

/-- **Return wrappers are never stored by tame programs.** After tame programs, and at any moment of
evaluating one more, no value that is bound to a name or passed to a function contains a return
wrapper; what an activity gives contains none unless it is one, and the value of a program or of a
call is none. -/
theorem wrapper_not_stored {input : List Incoming} {depth d : Nat} {node : Node} {activity : Activity}
    {m m' : Machine} {around : List (Nat × Pending)}
    (hsession : Session (fun node => node.tame) input m) (htame : node.tame)
    (hnested : Nested depth (.node node Machine.globalScope) m around d activity m') :
    m'.Stores (fun v => ¬v.isReturned) ∧
    ((activity.perform (evaluate d)).after m').Stores (fun v => ¬v.isReturned) ∧
    (∀ f vs, activity = .call f vs → ∀ v ∈ vs, v.Every fun w => ¬w.isReturned) ∧
    ∀ v m'', activity.perform (evaluate d) m' = .ok (some v) m'' →
      (∀ w, v.Contains w → w.isReturned → w = v) ∧ (activity.opens → ¬v.isReturned) := by
  obtain ⟨hm', hafter, -, hcall, hgives⟩ := (confines_sound False).of_session
    (fun _ htame => .inr htame) hsession htame hnested
  refine ⟨hm'.mono not_isReturned_of_allowed, hafter.mono not_isReturned_of_allowed,
    fun f vs hactivity v hv w hw => not_isReturned_of_allowed w (hcall f vs hactivity v hv w hw),
    fun v m'' hv => ⟨fun w hw hreturned => ?_, fun hopens hreturned => ?_⟩⟩
  · exact eq_of_contains (hgives v m'' hv) hw fun h => not_isReturned_of_allowed w h hreturned
  · rcases hgives v m'' hv with herror | hfits
    · cases v with
      | error => cases hreturned
      | _ => cases herror
    · have hallowed := hfits.self.resolve_right fun h => activity.not_mayReturn_of_opens hopens h.1
      exact not_isReturned_of_allowed v hallowed hreturned

/-- The program `let f = fn(x) { if (x) { return [x]; } 2 };`. -/
def earlyReturn : Node := (parse "let f = fn(x) \x7b if (x) \x7b return [x]; \x7d 2 \x7d;").tree

/-- The machine behind that program. -/
def bindsEarlyReturn : Machine := (evaluate 20 earlyReturn Machine.globalScope).after (.start [])

/-- The program `let y = f(true); return push(y, f(false));`. -/
def callsEarlyReturn : Node := (parse "let y = f(true); return push(y, f(false));").tree

/-- The returned values are opened before they are bound, pushed and given back. -/
theorem wrapper_not_stored_earlyReturn :
    earlyReturn.tame ∧ callsEarlyReturn.tame ∧
    ∃ v m, evaluate 20 callsEarlyReturn Machine.globalScope bindsEarlyReturn = .ok (some v) m ∧
      m.Stores (fun w => ¬w.isReturned) ∧ v.Every fun w => ¬w.isReturned := by
  obtain ⟨htame, htame', hresult⟩ : earlyReturn.tame ∧ callsEarlyReturn.tame ∧
      evaluate 20 callsEarlyReturn Machine.globalScope bindsEarlyReturn =
        .ok (some (.array 3 [.bool true, .int 2]))
          ((evaluate 20 callsEarlyReturn Machine.globalScope).after bindsEarlyReturn) := by
    refine ⟨?_, ?_, ?_⟩
    all_goals cbv
  have hsession : Session (fun node => node.tame) [] bindsEarlyReturn := .next .start htame 20
  have hself : Nested 20 (.node callsEarlyReturn Machine.globalScope) bindsEarlyReturn [] 20
      (.node callsEarlyReturn Machine.globalScope) bindsEarlyReturn := .self
  obtain ⟨-, hstores, -, hvalue⟩ := wrapper_not_stored hsession htame' hself
  obtain ⟨hinside, hopened⟩ := hvalue _ _ hresult
  refine ⟨htame, htame', _, _, hresult, hstores, fun w hw hreturned => ?_⟩
  exact hopened rfl (hinside w hw hreturned ▸ hreturned)

/-- A value that is kept, `let x = if (true) { return 5; };`. -/
def bindsWrapper : Parsed := parse "let x = if (true) \x7b return 5; \x7d;"

/-- A value that is returned, `return if (true) { return 5; };`. -/
def returnsWrapper : Parsed := parse "return if (true) \x7b return 5; \x7d;"

/-- The wrapper that a `return` in a branch makes is bound to a name, and it is what a program
gives. -/
theorem wrapper_stored_of_kept_branch :
    bindsWrapper.errors = [] ∧ returnsWrapper.errors = [] ∧
    ¬((evaluate 20 bindsWrapper.tree Machine.globalScope).after (.start [])).Stores
      (fun v => ¬v.isReturned) ∧
    ∃ m, evaluate 20 returnsWrapper.tree Machine.globalScope (.start []) =
      .ok (some (.returned 0 (.int 5))) m := by
  refine ⟨?_, ?_, ?_,
    (evaluate 20 returnsWrapper.tree Machine.globalScope).after (.start []), ?_⟩
  · cbv
  · cbv
  · have hbound : (evaluate 20 bindsWrapper.tree Machine.globalScope).after (.start []) =
        ⟨#[⟨none, [⟨"x", false, .returned 0 (.int 5)⟩]⟩], 1, [], #[]⟩ := by cbv
    rw [hbound]
    intro hstores
    exact hstores _ (Array.mem_singleton.mpr rfl) _ List.mem_cons_self _ .self rfl
  · cbv

end Monkey
