import Mathlib
import Monkey.Proofs.Valueless

/-!
# Parameters and arguments

A call binds the names of the parameters to the arguments in a new scope, one after the other
(`bindParameters`). A name that is repeated keeps its place and gets the later argument, so the scope
binds each name once, in the order of first appearance, to the argument of the last parameter with
that name (`names_putAll`, `find?_putAll`). From the new scope on, the scope of the function is
looked at for all other names (`lookup?_addScope_self`).

`applyFunction_binds` puts this together for calls of functions.
-/

namespace Monkey

/-! ## Bindings that are put in -/

namespace Scope

theorem names_put (b : Binding) (bindings : List Binding) :
    (put b bindings).map Binding.name =
      if b.name ∈ bindings.map Binding.name then bindings.map Binding.name
      else bindings.map Binding.name ++ [b.name] := by
  induction bindings with
  | nil => simp [put]
  | cons first rest ih =>
    rw [put]
    by_cases hfirst : first.name = b.name
    · simp [hfirst]
    · simp only [if_neg hfirst, List.map_cons, List.mem_cons, Ne.symm hfirst, false_or, ih]
      split <;> simp

/-- Puts in bindings one after the other. -/
def putAll (bindings entries : List Binding) : List Binding :=
  entries.foldl (fun bindings b => put b bindings) bindings

theorem putAll_concat (bindings entries : List Binding) (b : Binding) :
    putAll bindings (entries ++ [b]) = put b (putAll bindings entries) :=
  List.foldl_concat ..

/-- One binding for each name, in the order in which the names first appear. -/
theorem names_putAll (entries : List Binding) :
    (putAll [] entries).map Binding.name = (entries.map Binding.name).eraseDups := by
  induction entries using List.reverseRecOn with
  | nil => rfl
  | append_singleton entries b ih =>
    have hmem : b.name ∈ (entries.map Binding.name).eraseDups ↔ b.name ∈ entries.map Binding.name :=
      List.mem_eraseDups
    rw [putAll_concat, names_put, ih, List.map_append, List.map_singleton, List.eraseDups_append,
      List.removeAll, List.filter_singleton]
    by_cases hthere : b.name ∈ entries.map Binding.name
    · rw [if_pos (hmem.mpr hthere)]
      simp [hthere]
    · rw [if_neg (mt hmem.mp hthere)]
      simp [hthere, List.eraseDups_cons]

/-- The binding of a name is the last one that was put in. -/
theorem find?_putAll (entries : List Binding) (name : String) :
    (putAll [] entries).find? (·.name = name) = entries.findRev? (·.name = name) := by
  induction entries using List.reverseRecOn with
  | nil => rfl
  | append_singleton entries b ih =>
    rw [putAll_concat, List.findRev?_eq_find?_reverse, List.reverse_concat, List.find?_cons]
    by_cases hname : b.name = name
    · subst hname
      simpa [find?, declare] using find?_declare b ⟨none, putAll [] entries⟩
    · simp only [hname, decide_false, ← List.findRev?_eq_find?_reverse, ← ih]
      exact find?_declare_of_ne hname ⟨none, putAll [] entries⟩

end Scope

/-! ## Parameters and arguments -/

/-- The bindings of parameters to arguments, before repeated names are put together. -/
def entriesOf (parameters : List Name) (arguments : List Value) : List Binding :=
  (parameters.zip arguments).map fun entry => ⟨entry.1.value, false, entry.2⟩

section

variable {parameters : List Name} {arguments : List Value} {bindings : List Binding}

theorem bindParameters_of_length_le (h : parameters.length ≤ arguments.length) :
    bindParameters bindings parameters arguments =
      .ok (Scope.putAll bindings (entriesOf parameters arguments)) := by
  induction parameters generalizing bindings arguments with
  | nil => rfl
  | cons p ps ih =>
    cases arguments with
    | nil => simp at h
    | cons v vs => exact ih (Nat.le_of_succ_le_succ h)

/-- Surplus arguments are ignored. -/
theorem bindParameters_append (h : parameters.length ≤ arguments.length) (surplus : List Value) :
    bindParameters bindings parameters (arguments ++ surplus) =
      bindParameters bindings parameters arguments := by
  induction parameters generalizing bindings arguments with
  | nil => simp only [bindParameters]
  | cons p ps ih =>
    cases arguments with
    | nil => simp at h
    | cons v vs => exact ih (Nat.le_of_succ_le_succ h)

theorem bindParameters_of_getElem? {p : Name} (h : parameters[arguments.length]? = some p) :
    bindParameters bindings parameters arguments = .error (.argumentMissing p.value) := by
  induction arguments generalizing bindings parameters with
  | nil =>
    cases parameters with
    | nil => cases h
    | cons q ps =>
      cases h
      rfl
  | cons v vs ih =>
    cases parameters with
    | nil => cases h
    | cons q ps => exact ih h

/-- The parameter without an argument is reported. -/
theorem bindParameters_eq_error_iff {e : RuntimeError} :
    bindParameters bindings parameters arguments = .error e ↔
      ∃ p, parameters[arguments.length]? = some p ∧ e = .argumentMissing p.value := by
  constructor
  · intro h
    by_cases hlength : parameters.length ≤ arguments.length
    · rw [bindParameters_of_length_le hlength] at h
      cases h
    · have hp : parameters[arguments.length]? = some parameters[arguments.length] :=
        List.getElem?_eq_getElem _
      rw [bindParameters_of_getElem? hp] at h
      cases h
      exact ⟨_, hp, rfl⟩
  · rintro ⟨p, hp, rfl⟩
    exact bindParameters_of_getElem? hp

theorem names_entriesOf (h : parameters.length ≤ arguments.length) :
    (entriesOf parameters arguments).map Binding.name = parameters.map Name.value := by
  induction parameters generalizing arguments with
  | nil => rfl
  | cons p ps ih =>
    cases arguments with
    | nil => simp at h
    | cons v vs => exact congrArg (p.value :: ·) (ih (Nat.le_of_succ_le_succ h))

theorem findRev?_entriesOf_eq_none {name : String} (h : ∀ p ∈ parameters, p.value ≠ name) :
    (entriesOf parameters arguments).findRev? (·.name = name) = none := by
  rw [List.findRev?_eq_find?_reverse, List.find?_eq_none]
  intro b hb
  obtain ⟨entry, hentry, rfl⟩ := List.mem_map.mp (List.mem_reverse.mp hb)
  simpa using h entry.1 (List.of_mem_zip hentry).1

/-- The last parameter with a name decides. -/
theorem findRev?_entriesOf {j : Nat} {p : Name} {v : Value} (hp : parameters[j]? = some p)
    (hv : arguments[j]? = some v)
    (hlast : ∀ k q, j < k → parameters[k]? = some q → q.value ≠ p.value) :
    (entriesOf parameters arguments).findRev? (·.name = p.value) = some ⟨p.value, false, v⟩ := by
  induction parameters generalizing arguments j with
  | nil => cases hp
  | cons first ps ih =>
    cases arguments with
    | nil => cases hv
    | cons w vs =>
      rw [entriesOf, List.zip_cons_cons, List.map_cons, List.findRev?, ← entriesOf]
      cases j with
      | succ j =>
        have hfound := ih hp hv fun k q hk hq => hlast (k + 1) q (Nat.succ_lt_succ hk) hq
        rw [hfound]
      | zero =>
        cases hp
        cases hv
        have hlater : ∀ q ∈ ps, q.value ≠ p.value := by
          intro q hq
          obtain ⟨k, hk⟩ := List.mem_iff_getElem?.mp hq
          exact hlast (k + 1) q (Nat.succ_pos k) hk
        rw [findRev?_entriesOf_eq_none hlater]
        simp

end

/-! ## The scope of a call -/

namespace Machine

variable {m : Machine} {scope : Nat}

/-- A new scope is seen from no scope that was there before. -/
theorem lookup?_addScope (s : Scope) (name : String) (h : scope < m.scopes.size) :
    (m.addScope s).2.lookup? name scope = m.lookup? name scope := by
  induction scope using Nat.strongRecOn with
  | ind scope ih =>
    have hsame : (m.addScope s).2.scopes[scope]? = m.scopes[scope]? :=
      (Preserves.addScope s m).scopes scope h id
    rw [lookup?, lookup?, hsame]
    cases m.scopes[scope]? with
    | none => rfl
    | some s₀ =>
      simp only
      cases s₀.find? name with
      | some b => rfl
      | none =>
        simp only
        cases s₀.outer with
        | none => rfl
        | some outer =>
          simp only
          split
          · next houter => exact ih outer houter (Nat.lt_trans houter h)
          · rfl

/-- In a new scope a name is looked up in its bindings first, and then in the scope around it. -/
theorem lookup?_addScope_self (bindings : List Binding) (name : String)
    (h : scope < m.scopes.size) :
    (m.addScope ⟨some scope, bindings⟩).2.lookup? name m.scopes.size =
      ((bindings.find? (·.name = name)).map Binding.value).or (m.lookup? name scope) := by
  have hnew : (m.addScope ⟨some scope, bindings⟩).2.scopes[m.scopes.size]? =
      some ⟨some scope, bindings⟩ := by
    simp [addScope]
  rw [lookup?, hnew]
  simp only [Scope.find?]
  cases bindings.find? (·.name = name) with
  | some b => rfl
  | none =>
    simp only [h, if_true, Option.map_none, Option.none_or]
    exact lookup?_addScope _ name h

end Machine

/-- **A call binds its parameters.** The first parameter without an argument is reported, and then
the machine is as before. Otherwise the body is run in a new scope inside the one of the function,
which binds the names of the parameters in the order of their first appearance, each to the argument
of the last parameter with the name. Surplus arguments make no difference. All other names mean what
they mean in the scope of the function. -/
theorem applyFunction_binds (run : Evaluator) (i : Nat) (parameters : List Name) (body : Node)
    (arguments : List Value) {scope : Nat} {m : Machine} (hscope : scope < m.scopes.size) :
    (∀ e, bindParameters [] parameters arguments = .error e ↔
      ∃ p, parameters[arguments.length]? = some p ∧ e = .argumentMissing p.value) ∧
    (∀ e, bindParameters [] parameters arguments = .error e →
      applyFunction run (.function i parameters body scope) arguments m =
        .ok (some (.error e)) m) ∧
    (parameters.length ≤ arguments.length → ∃ (bindings : List Binding) (m' : Machine),
      bindParameters [] parameters arguments = .ok bindings ∧
      (∀ surplus, bindParameters [] parameters (arguments ++ surplus) = .ok bindings) ∧
      m' = { m with scopes := m.scopes.push ⟨some scope, bindings⟩ } ∧
      applyFunction run (.function i parameters body scope) arguments m =
        (run body m.scopes.size >>= fun result => pure (result.map Value.unwrap)) m' ∧
      bindings.map Binding.name = (parameters.map Name.value).eraseDups ∧
      (∀ b ∈ bindings, b.constant = false) ∧
      (∀ (j : Nat) (p : Name) (v : Value), parameters[j]? = some p → arguments[j]? = some v →
        (∀ (k : Nat) (q : Name), j < k → parameters[k]? = some q → q.value ≠ p.value) →
        bindings.find? (·.name = p.value) = some ⟨p.value, false, v⟩ ∧
        m'.lookup? p.value m.scopes.size = some v) ∧
      ∀ name, (∀ p ∈ parameters, p.value ≠ name) →
        m'.lookup? name m.scopes.size = m.lookup? name scope) := by
  refine ⟨fun e => bindParameters_eq_error_iff, fun e h => ?_, fun hlength => ?_⟩
  · simp only [applyFunction, h]
    rfl
  have hbind : bindParameters [] parameters arguments =
      .ok (Scope.putAll [] (entriesOf parameters arguments)) := bindParameters_of_length_le hlength
  have hlookup (name : String) := Machine.lookup?_addScope_self (m := m)
    (Scope.putAll [] (entriesOf parameters arguments)) name hscope
  refine ⟨_, _, hbind, fun surplus => ?_, rfl, applyFunction_ok m hbind, ?_, ?_, ?_, ?_⟩
  · rw [bindParameters_append hlength, hbind]
  · rw [Scope.names_putAll, names_entriesOf hlength]
  · exact forall_bindParameters (List.forall_mem_nil _) (fun _ _ _ _ => rfl) hbind
  · intro j p v hp hv hlast
    have hfound : (Scope.putAll [] (entriesOf parameters arguments)).find? (·.name = p.value) =
        some ⟨p.value, false, v⟩ := by
      rw [Scope.find?_putAll, findRev?_entriesOf hp hv hlast]
    refine ⟨hfound, (hlookup p.value).trans ?_⟩
    rw [hfound]
    rfl
  · intro name hname
    refine (hlookup name).trans ?_
    rw [Scope.find?_putAll, findRev?_entriesOf_eq_none hname]
    rfl

/-- The parameters `x, y, x`. -/
def repeatsX : List Name := ["x", "y", "x"].map fun name => ⟨⟨.ident, name⟩, name⟩

/-- The machine in which `y` is bound to 8 and `z` to 9. -/
def bindsYZ : Machine := ⟨#[⟨none, [⟨"y", false, .int 8⟩, ⟨"z", true, .int 9⟩]⟩], 0, [], #[]⟩

/-- Of two parameters `x` the later one counts, `y` hides the `y` of the function's scope and `z` is
found there. With two arguments the second `x` is missing. -/
theorem applyFunction_binds_repeatsX :
    0 < bindsYZ.scopes.size ∧
    bindParameters [] repeatsX [.int 1, .int 2] = .error (.argumentMissing "x") ∧
    ∃ (bindings : List Binding) (m' : Machine),
      bindParameters [] repeatsX [.int 1, .int 2, .int 3, .int 4] = .ok bindings ∧
      m' = { bindsYZ with scopes := bindsYZ.scopes.push ⟨some 0, bindings⟩ } ∧
      bindings.map Binding.name = ["x", "y"] ∧ m'.lookup? "x" 1 = some (.int 3) ∧
      m'.lookup? "y" 1 = some (.int 2) ∧ m'.lookup? "z" 1 = some (.int 9) := by
  have hz : bindsYZ.lookup? "z" 0 = some (.int 9) := by
    rw [Machine.lookup?]
    rfl
  have hscope : 0 < bindsYZ.scopes.size := by decide
  have hlaw (arguments : List Value) :=
    applyFunction_binds (fun _ _ => pure none) 0 repeatsX .missing arguments hscope
  obtain ⟨herror, -, -⟩ := hlaw [.int 1, .int 2]
  obtain ⟨-, -, hbound⟩ := hlaw [.int 1, .int 2, .int 3, .int 4]
  obtain ⟨bindings, m', hbind, -, hm', -, hnames, -, hlast, hother⟩ := hbound (by decide)
  refine ⟨hscope, (herror _).mpr ⟨_, rfl, rfl⟩, bindings, m', hbind, hm',
    hnames.trans (by decide), ?_, ?_, ?_⟩
  · refine (hlast 2 _ _ rfl rfl fun k q hk hq => ?_).2
    obtain ⟨k, rfl⟩ : ∃ n, k = n + 3 := ⟨k - 3, by omega⟩
    cases hq
  · refine (hlast 1 _ _ rfl rfl fun k q hk hq => ?_).2
    obtain rfl | ⟨k, rfl⟩ : k = 2 ∨ ∃ n, k = n + 3 := by
      rcases Nat.lt_or_ge k 3 with h | h
      · exact .inl (by omega)
      · exact .inr ⟨k - 3, by omega⟩
    · cases hq
      decide
    · cases hq
  · exact (hother "z" (by decide)).trans hz

end Monkey
