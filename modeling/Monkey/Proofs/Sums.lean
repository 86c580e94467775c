import Mathlib
import Monkey.Proofs.Route

/-!
# Sums of arrays

`sumarr` adds up numbers and makes a value of the sum at the end; the operator `+` makes a value
after each addition. That makes no difference but to the identities of NaNs, since no addition looks
at them: both come to the same number, or to the same fault (`number_foldlM`).

`call_sumarr` says so, and what follows for arrays of integers and for arrays with an element that is
no number.
-/

namespace Monkey

namespace Builtin

/-- The sum of the numbers among values, added from the left to a first summand. -/
def total (sum : Number) (vs : List Value) : Except Number.Fault Number :=
  (vs.filterMap Value.number?).foldlM Number.add sum

theorem total_cons {v : Value} {n : Number} (hv : v.number? = some n) (sum : Number)
    (vs : List Value) : total sum (v :: vs) = (sum.add n >>= fun sum => total sum vs) := by
  rw [total, List.filterMap_cons_some hv, List.foldlM_cons]
  rfl

/-! ## Adding up numbers -/

theorem sumFrom_cons {v : Value} {n : Number} (hv : v.number? = some n) (sum : Number)
    (vs : List Value) :
    sumFrom sum (v :: vs) = (Eval.arithmetic (sum.add n) >>= fun sum => sumFrom sum vs) := by
  rw [sumFrom, hv]

/-- A value that is no number ends the sum with an error. -/
theorem sumFrom_of_not_number {v : Value} (hv : v.number? = none) (sum : Number)
    (vs : List Value) : sumFrom sum (v :: vs) = pure (.error .nonNumericElement) := by
  rw [sumFrom, hv]

/-- Numbers are added up first; then comes what follows them. -/
theorem sumFrom_append {vs : List Value} (hvs : ∀ v ∈ vs, v.number?.isSome) (sum : Number)
    (more : List Value) :
    sumFrom sum (vs ++ more) = (Eval.arithmetic (total sum vs) >>= fun sum => sumFrom sum more) := by
  induction vs generalizing sum with
  | nil => rfl
  | cons v vs ih =>
    obtain ⟨hv, hmore⟩ := List.forall_mem_cons.mp hvs
    obtain ⟨n, hn⟩ := Option.isSome_iff_exists.mp hv
    rw [List.cons_append, sumFrom_cons hn, total_cons hn]
    cases sum.add n with
    | ok sum => exact ih hmore sum
    | error fault => rfl

/-- The sum of numbers is computed in the order of the elements. -/
theorem sumFrom_eq_total {vs : List Value} (hvs : ∀ v ∈ vs, v.number?.isSome) (sum : Number) :
    sumFrom sum vs = (Eval.arithmetic (total sum vs) >>= Eval.number) := by
  have happend := sumFrom_append hvs sum []
  rw [List.append_nil] at happend
  exact happend

/-- Integers are added exactly. -/
theorem total_int (ns : List Int) (n : Int) :
    total (.int n) (ns.map .int) = .ok (.int (n + ns.sum)) := by
  induction ns generalizing n with
  | nil =>
    rw [List.sum_nil, Int.add_zero]
    rfl
  | cons first ns ih =>
    rw [List.map_cons, total_cons (n := .int first) rfl, List.sum_cons, ← Int.add_assoc]
    exact ih (n + first)

end Builtin

/-! ## The operator -/

/-- No addition looks at the identity of a NaN. -/
theorem Number.add_nan (i j : Nat) (n : Number) :
    (Number.float (.nan i)).add n = (Number.float (.nan j)).add n := by
  cases n <;> rfl

/-- A number becomes a value. Only a NaN takes an identity, and the value is added as the number
is. -/
theorem Eval.number_eq_ok (n : Number) (m : Machine) :
    ∃ v k a, Eval.number n m = .ok v { m with nextIdentity := k } ∧ m.nextIdentity ≤ k ∧
      v.number? = some a ∧ ∀ b, a.add b = n.add b := by
  cases n with
  | int n => exact ⟨.int n, m.nextIdentity, .int n, rfl, Nat.le_refl _, rfl, fun _ => rfl⟩
  | float x =>
    cases x with
    | nan payload =>
      refine ⟨.float (.nan m.nextIdentity), m.nextIdentity + 1, .float (.nan m.nextIdentity), rfl,
        Nat.le_succ _, rfl, ?_⟩
      exact Number.add_nan _ _
    | _ => exact ⟨.float _, m.nextIdentity, .float _, rfl, Nat.le_refl _, rfl, fun _ => rfl⟩

theorem applyInfix_numbers {u v : Value} {a b : Number} (operator : String)
    (hu : u.number? = some a) (hv : v.number? = some b) :
    applyInfix operator u v = applyNumeric operator u v a b := by
  simp only [applyInfix, hu, hv]

theorem applyInfix_add {u v : Value} {a b : Number} (hu : u.number? = some a)
    (hv : v.number? = some b) :
    applyInfix "+" u v = (Eval.arithmetic (a.add b) >>= Eval.number) := by
  rw [applyInfix_numbers "+" hu hv]
  rfl

/-- **A value after each addition, or one at the end.** The operator uses up the identities of the
NaNs that arise on the way, and nothing else is different. -/
theorem number_foldlM {vs : List Value} (hvs : ∀ v ∈ vs, v.number?.isSome) (sum : Number)
    (m : Machine) :
    ∃ k ≥ m.nextIdentity, (Eval.number sum >>= fun v => vs.foldlM (applyInfix "+") v) m =
      Builtin.sumFrom sum vs { m with nextIdentity := k } := by
  induction vs generalizing sum m with
  | nil => exact ⟨m.nextIdentity, Nat.le_refl _, congrFun (bind_pure _) m⟩
  | cons v vs ih =>
    obtain ⟨hv, hmore⟩ := List.forall_mem_cons.mp hvs
    obtain ⟨b, hb⟩ := Option.isSome_iff_exists.mp hv
    obtain ⟨w, k, a, hnumber, hk, ha, hadd⟩ := Eval.number_eq_ok sum m
    rw [Eval.bind_ok _ hnumber, List.foldlM_cons, applyInfix_add ha hb, hadd,
      Builtin.sumFrom_cons hb]
    cases sum.add b with
    | error fault => exact ⟨k, hk, rfl⟩
    | ok sum' =>
      obtain ⟨k', hk', hrest⟩ := ih hmore sum' { m with nextIdentity := k }
      exact ⟨k', Nat.le_trans hk hk', hrest⟩

/-- The sums in between may take identities that the sum of all does not take. -/
theorem foldlM_applyInfix {vs : List Value} (hvs : ∀ v ∈ vs, v.number?.isSome) (m : Machine) :
    ∃ k ≥ m.nextIdentity, vs.foldlM (applyInfix "+") (.int 0) m =
      (Eval.arithmetic (Builtin.total (.int 0) vs) >>= Eval.number)
        { m with nextIdentity := k } := by
  obtain ⟨k, hk, hfold⟩ := number_foldlM hvs (.int 0) m
  rw [Builtin.sumFrom_eq_total hvs] at hfold
  exact ⟨k, hk, hfold⟩

/-- **`sumarr` agrees with the operator.** For an array of numbers there is one number, or one fault,
that both the call and the operator, applied from the left to 0 and the elements, come to. The sum of
an array of integers is exact, in any order of the elements. Where an element is no number, the call
gives an error, unless adding up the numbers in front of it fails already. -/
theorem call_sumarr (i : Nat) (vs : List Value) :
    ((∀ v ∈ vs, v.number?.isSome) → ∃ result : Except Number.Fault Number,
      Builtin.sumarr.call [.array i vs] = (Eval.arithmetic result >>= Eval.number) ∧
      ∀ m, ∃ k ≥ m.nextIdentity, vs.foldlM (applyInfix "+") (.int 0) m =
        (Eval.arithmetic result >>= Eval.number) { m with nextIdentity := k }) ∧
    (∀ ns : List Int, vs.Perm (ns.map .int) →
      ∀ m, Builtin.sumarr.call [.array i vs] m = .ok (.int ns.sum) m) ∧
    ∀ earlier v later, vs = earlier ++ v :: later → (∀ u ∈ earlier, u.number?.isSome) →
      v.number? = none → ∀ m,
      (∃ u m', earlier.foldlM (applyInfix "+") (.int 0) m = .ok u m' ∧
        Builtin.sumarr.call [.array i vs] m = .ok (.error .nonNumericElement) m) ∨
      ∃ fault m', earlier.foldlM (applyInfix "+") (.int 0) m = .error (.arithmetic fault) m' ∧
        Builtin.sumarr.call [.array i vs] m = .error (.arithmetic fault) m := by
  have hcall : Builtin.sumarr.call [.array i vs] = Builtin.sumFrom (.int 0) vs := rfl
  rw [hcall]
  refine ⟨fun hvs => ?_, fun ns hperm m => ?_, ?_⟩
  · exact ⟨Builtin.total (.int 0) vs, Builtin.sumFrom_eq_total hvs _, foldlM_applyInfix hvs⟩
  · -- the elements are integers again, with the same sum
    obtain ⟨ns', rfl, hsame⟩ : Relation.Comp (· = List.map Value.int ·) List.Perm vs ns := by
      rw [List.eq_map_comp_perm]
      exact hperm
    have hnumbers : ∀ v ∈ ns'.map Value.int, v.number?.isSome := by simp [Value.number?]
    rw [Builtin.sumFrom_eq_total hnumbers, Builtin.total_int, Int.zero_add, hsame.sum_eq]
    rfl
  · rintro earlier v later rfl hearlier hv m
    obtain ⟨k, -, hfold⟩ := foldlM_applyInfix hearlier m
    simp only [hfold, Builtin.sumFrom_append hearlier, Builtin.sumFrom_of_not_number hv]
    cases Builtin.total (.int 0) earlier with
    | ok sum =>
      obtain ⟨w, k', a, hnumber, -⟩ := Eval.number_eq_ok sum { m with nextIdentity := k }
      exact .inl ⟨w, _, hnumber, rfl⟩
    | error fault => exact .inr ⟨fault, _, rfl, rfl⟩

/-- The array `[1, inf, -inf, 2]`, whose sum becomes a NaN at the third element. -/
def cancelsInfinity : List Value :=
  [.int 1, .float (.infinite false), .float (.infinite true), .int 2]

/-- Every element is a number here; with a string behind them the string is reported, as the operator
comes to a sum in front of it. Integers have the same sum in another order. -/
theorem call_sumarr_cancelsInfinity :
    (∀ v ∈ cancelsInfinity, v.number?.isSome) ∧
    (∃ result : Except Number.Fault Number,
      Builtin.sumarr.call [.array 0 cancelsInfinity] = (Eval.arithmetic result >>= Eval.number) ∧
      ∀ m, ∃ k ≥ m.nextIdentity, cancelsInfinity.foldlM (applyInfix "+") (.int 0) m =
        (Eval.arithmetic result >>= Eval.number) { m with nextIdentity := k }) ∧
    Builtin.sumarr.call [.array 0 (cancelsInfinity ++ [.str "a"])] (.start []) =
      .ok (.error .nonNumericElement) (.start []) ∧
    Builtin.sumarr.call [.array 0 [.int 7, .int (-5), .int 3]] (.start []) =
      .ok (.int ([3, 7, -5] : List Int).sum) (.start []) := by
  have hnumbers : ∀ v ∈ cancelsInfinity, v.number?.isSome := by
    simp [cancelsInfinity, Value.number?]
  refine ⟨hnumbers, (call_sumarr 0 cancelsInfinity).1 hnumbers, ?_, ?_⟩
  · obtain ⟨-, -, hstring⟩ := call_sumarr 0 (cancelsInfinity ++ [.str "a"])
    rcases hstring cancelsInfinity (.str "a") [] rfl hnumbers rfl (.start []) with
      ⟨-, -, -, hcall⟩ | ⟨fault, m', hfold, -⟩
    · exact hcall
    · cases hfold
  · obtain ⟨-, hints, -⟩ := call_sumarr 0 [.int 7, .int (-5), .int 3]
    exact hints [3, 7, -5] (List.perm_append_singleton _ [_, _]) _

end Monkey
