import Mathlib
import Monkey.Proofs.Entries
import Monkey.Proofs.Shown

/-!
# Which values have no text

A value is shown with all that it contains. So it has no text if there is an integer with too many
digits in it, or a function with an `if` without an `else` in its body, and in no other case. What is
reported is the first of these, in the order in which the parts are shown
(`Value.inspect_eq_error_iff`).
-/

namespace Monkey

namespace Value

/-- Nothing in the value itself keeps it from being shown; what it holds is not looked at. -/
def Showable (v : Value) : Prop :=
  v.Fits ∧ ∀ i parameters body scope, v = .function i parameters body scope →
    body.all Node.hasElse

/-- The first thing in a value that can not be shown, and why. -/
inductive Hides : Value → Unprintable → Prop where
  | digits (long : Nat.pow 10 Numeral.digitLimit ≤ n.natAbs) : Hides (.int n) .tooManyDigits
  | body (bare : ¬body.all Node.hasElse) :
      Hides (.function i parameters body scope) .missingElse
  | part (order : v.parts = earlier ++ w :: later) (before : ∀ u ∈ earlier, u.Every Showable)
      (inside : Hides w reason) : Hides v reason

/-- A part is smaller than the value, so a search through the parts comes to an end. -/
theorem sizeOf_lt_of_mem_parts {u v : Value} (h : u ∈ v.parts) : sizeOf u < sizeOf v := by
  cases v with
  | array i elements =>
    have hsize : sizeOf u < sizeOf elements := List.sizeOf_lt_of_mem h
    simp only [array.sizeOf_spec]
    omega
  | dict i pairs =>
    obtain ⟨pair, hpair, hu⟩ := mem_parts_dict.mp h
    have hsize := List.sizeOf_lt_of_mem hpair
    obtain ⟨k, w⟩ := pair
    simp only [Prod.mk.sizeOf_spec, dict.sizeOf_spec] at hsize ⊢
    rcases hu with rfl | rfl <;> omega
  | returned i w =>
    obtain rfl := List.mem_singleton.mp h
    simp only [returned.sizeOf_spec]
    omega
  | _ => cases h

/-! ## The texts of the parts -/

variable {v : Value} {reason : Unprintable}

theorem inspectAll_ok {vs : List Value} (h : ∀ v ∈ vs, ∃ text, v.inspect = .ok text) :
    ∃ texts, inspectAll vs = .ok texts := by
  induction vs with
  | nil => exact ⟨[], rfl⟩
  | cons v vs ih =>
    obtain ⟨⟨text, hv⟩, hvs⟩ := List.forall_mem_cons.mp h
    obtain ⟨texts, htexts⟩ := ih hvs
    refine ⟨text :: texts, ?_⟩
    rw [inspectAll, hv, htexts]
    rfl

/-- The first value without a text decides what is reported. -/
theorem inspectAll_append {earlier : List Value} {w : Value}
    (hearlier : ∀ v ∈ earlier, ∃ text, v.inspect = .ok text) (hw : w.inspect = .error reason)
    (later : List Value) : inspectAll (earlier ++ w :: later) = .error reason := by
  induction earlier with
  | nil =>
    rw [List.nil_append, inspectAll, hw]
    rfl
  | cons v earlier ih =>
    obtain ⟨⟨text, hv⟩, hmore⟩ := List.forall_mem_cons.mp hearlier
    rw [List.cons_append, inspectAll, hv, ih hmore]
    rfl

/-- Pairs are shown as their keys and values are, one after the other. -/
theorem inspectPairs_eq_inspectAll (pairs : Pairs) :
    ∃ join : List String → List String, inspectPairs pairs =
      join <$> inspectAll (pairs.flatMap fun pair => [pair.1, pair.2]) := by
  induction pairs with
  | nil => exact ⟨id, rfl⟩
  | cons pair pairs ih =>
    obtain ⟨k, w⟩ := pair
    obtain ⟨join, hjoin⟩ := ih
    refine ⟨fun texts => (texts.getD 0 "" ++ ": " ++ texts.getD 1 "") :: join (texts.drop 2), ?_⟩
    rw [inspectPairs, hjoin, List.flatMap_cons, List.cons_append, List.cons_append, List.nil_append,
      inspectAll, inspectAll]
    cases k.inspect with
    | error => rfl
    | ok =>
      cases w.inspect with
      | error => rfl
      | ok =>
        cases inspectAll (pairs.flatMap fun pair => [pair.1, pair.2]) <;> rfl

/-- An integer with too many digits has no text. -/
theorem intText_of_le {n : Int} (h : Nat.pow 10 Numeral.digitLimit ≤ n.natAbs) :
    intText n = .error .tooManyDigits := by
  unfold intText Numeral.ofInt?
  rw [if_pos h]

theorem inspectAll_singleton (w : Value) : inspectAll [w] = (fun text => [text]) <$> w.inspect := by
  rw [inspectAll, inspectAll]
  cases w.inspect <;> rfl

/-- A value is shown with its parts, so the first one without a text is reported. -/
theorem inspect_of_parts_error (h : inspectAll v.parts = .error reason) :
    v.inspect = .error reason := by
  cases v with
  | array i elements =>
    rw [inspect, show inspectAll elements = _ from h]
    rfl
  | dict i pairs =>
    obtain ⟨join, hjoin⟩ := inspectPairs_eq_inspectAll pairs
    rw [inspect, hjoin, show inspectAll (pairs.flatMap _) = _ from h]
    rfl
  | returned i w =>
    rw [parts, inspectAll_singleton] at h
    rw [inspect]
    cases hw : w.inspect with
    | ok text =>
      rw [hw] at h
      cases h
    | error =>
      rw [hw] at h
      cases h
      rfl
  | _ => cases h

/-- If the parts can be shown, only the value itself can be the reason that there is no text. -/
theorem inspect_of_parts_ok {texts : List String} (hv : v.Showable)
    (h : inspectAll v.parts = .ok texts) : ∃ text, v.inspect = .ok text := by
  cases v with
  | array i elements =>
    rw [inspect, show inspectAll elements = _ from h]
    exact ⟨_, rfl⟩
  | dict i pairs =>
    obtain ⟨join, hjoin⟩ := inspectPairs_eq_inspectAll pairs
    rw [inspect, hjoin, show inspectAll (pairs.flatMap _) = _ from h]
    exact ⟨_, rfl⟩
  | returned i w =>
    rw [parts, inspectAll_singleton] at h
    rw [inspect]
    cases hw : w.inspect with
    | ok text => exact ⟨text, rfl⟩
    | error =>
      rw [hw] at h
      cases h
  | int n =>
    rw [inspect]
    exact ⟨_, intText_eq (hv.1 n rfl)⟩
  | function i parameters body scope =>
    exact (shows_inspect i parameters body scope).ok (hv.2 i parameters body scope rfl)
  | _ => exact ⟨_, rfl⟩

/-! ## Values -/

/-- By induction on the size of the value. -/
theorem inspect_of_every (v : Value) (h : v.Every Showable) : ∃ text, v.inspect = .ok text := by
  obtain ⟨hv, hparts⟩ := every_iff.mp h
  obtain ⟨texts, htexts⟩ := inspectAll_ok fun u hu => inspect_of_every u (hparts u hu)
  exact inspect_of_parts_ok hv htexts
termination_by sizeOf v
decreasing_by exact sizeOf_lt_of_mem_parts hu

theorem Hides.inspect_eq (h : v.Hides reason) : v.inspect = .error reason := by
  induction h with
  | digits long => rw [inspect, intText_of_le long]
  | body bare => exact (shows_inspect ..).error bare
  | part order before _ ih =>
    refine inspect_of_parts_error ?_
    rw [order]
    exact inspectAll_append (fun u hu => inspect_of_every u (before u hu)) ih _

/-- A value that can not be shown itself is too long or has a bare `if` in its body. -/
theorem hides_of_not_showable (h : ¬v.Showable) : ∃ reason, v.Hides reason := by
  unfold Showable Fits at h
  rcases not_and_or.mp h with hlong | hbare
  · push Not at hlong
    obtain ⟨n, rfl, hn⟩ := hlong
    exact ⟨_, .digits hn⟩
  · push Not at hbare
    obtain ⟨i, parameters, body, scope, rfl, hbody⟩ := hbare
    exact ⟨_, .body hbody⟩

/-- Of values that can be shown or not, all can be shown, or there is a first that can not. -/
theorem forall_or_first {p q : Value → Prop} {vs : List Value} (h : ∀ v ∈ vs, p v ∨ q v) :
    (∀ v ∈ vs, p v) ∨
      ∃ earlier w later, vs = earlier ++ w :: later ∧ (∀ u ∈ earlier, p u) ∧ q w := by
  induction vs with
  | nil => exact .inl (List.forall_mem_nil _)
  | cons v vs ih =>
    obtain ⟨hv, hvs⟩ := List.forall_mem_cons.mp h
    rcases hv with hp | hq
    · rcases ih hvs with hall | ⟨earlier, w, later, rfl, before, hw⟩
      · exact .inl (List.forall_mem_cons.mpr ⟨hp, hall⟩)
      · exact .inr ⟨v :: earlier, w, later, rfl, List.forall_mem_cons.mpr ⟨hp, before⟩, hw⟩
    · exact .inr ⟨[], v, vs, rfl, List.forall_mem_nil _, hq⟩

/-- Either nothing in a value hides, or there is a first thing that does. -/
theorem every_or_hides (v : Value) : v.Every Showable ∨ ∃ reason, v.Hides reason := by
  by_cases hv : v.Showable
  · rcases forall_or_first fun u (hu : u ∈ v.parts) => every_or_hides u with
      hparts | ⟨earlier, w, later, order, before, reason, inside⟩
    · exact .inl (every_iff.mpr ⟨hv, hparts⟩)
    · exact .inr ⟨reason, .part order before inside⟩
  · exact .inr (hides_of_not_showable hv)
termination_by sizeOf v
decreasing_by exact sizeOf_lt_of_mem_parts hu

/-- **A value has no text exactly if it hides something.** -/
theorem inspect_eq_error_iff : v.inspect = .error reason ↔ v.Hides reason := by
  refine ⟨fun h => ?_, Hides.inspect_eq⟩
  rcases v.every_or_hides with hevery | ⟨reason', hides⟩
  · obtain ⟨text, htext⟩ := inspect_of_every v hevery
    rw [htext] at h
    cases h
  · rw [hides.inspect_eq] at h
    cases h
    exact hides

end Value

end Monkey
