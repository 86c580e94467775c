import Monkey.Proofs.Constructs

/-!
# What holds where a step ends

`Leads R post x m` says of a step that it changes the machine `m` no more than `R` allows, whether
it ends with a result or halts, and that what it gives satisfies `post` in the machine behind it. So
a postcondition may speak of the scopes that are there by then.

A single run is compared with itself (`leads_iff_tracks`), so the rules for the parts of evaluation
are those of `Tracks`.
-/

namespace Monkey

/-- From the machine `m` a step changes no more than `R` allows, however it ends, and what it gives
satisfies `post` in the machine behind it. -/
structure Leads (R : Change) (post : Machine → α → Prop) (x : Eval α) (m : Machine) : Prop where
  keeps : R.Holds m (x.after m)
  gives : ∀ {a m'}, x m = .ok a m' → post m' a

/-- The course of a single run: its machine is that of the other run. -/
def Change.single (R : Change) : Course := ⟨Eq, R⟩

section

variable {R : Change} {post : Machine → α → Prop} {x : Eval α} {m : Machine}

theorem Leads.of_ok {a : α} {m' : Machine} (hx : Leads R post x m) (h : x m = .ok a m') :
    R.Holds m m' ∧ post m' a :=
  ⟨Eval.after_of_ok h ▸ hx.keeps, hx.gives h⟩

theorem leads_iff_tracks : Leads R post x m ↔ Tracks R.single post x m m := by
  constructor
  · intro h
    have hkeeps := h.keeps
    unfold Eval.after at hkeeps
    unfold Tracks
    cases hx : x m with
    | ok a s =>
      rw [hx] at hkeeps
      exact .ok (h.gives hx) ⟨rfl, hkeeps⟩
    | error halt s =>
      rw [hx] at hkeeps
      exact .error ⟨rfl, hkeeps⟩
  · intro h
    refine ⟨h.after.change, fun {a m'} hx => ?_⟩
    unfold Tracks at h
    rw [hx] at h
    cases h with
    | ok value _ => exact value

/-- A change of the scopes carries a property of values along if that lasts. -/
theorem Change.carries {p : Machine → Value → Prop}
    (hsame : ∀ {m m'}, m'.scopes = m.scopes → R.Holds m m') (hplain : ∀ m v, v.isPlain → p m v)
    (hlasts : Lasts R p) : R.single.Carries p where
  plain := hplain
  lasts := hlasts
  oblivious := by
    rintro α x post m _ rfl hx hyields
    exact leads_iff_tracks.mp ⟨hsame (hx.keeps m), hyields _ _ _⟩

/-- Where nothing is asked of values, a change of the scopes carries them along. -/
theorem Change.carries_any (hsame : ∀ {m m'}, m'.scopes = m.scopes → R.Holds m m') :
    R.single.Carries fun _ _ => True :=
  R.carries hsame (fun _ _ _ => trivial) fun _ _ _ _ h => h

/-- What keeps within a change leads to a result of which nothing is asked. -/
theorem Keeps.tracks {x : Eval (Option Value)} {may : Bool} {m' : Machine} (hx : Keeps R x)
    (hm : m = m') : Tracks R.single (NodeResult (fun _ _ => True) may) x m m' := by
  subst hm
  exact leads_iff_tracks.mp ⟨hx m, fun _ v _ => .inr ⟨fun _ _ _ _ => trivial, .inl trivial⟩⟩

end

/-- Values that were given one after the other all hold where the last one was given. -/
theorem Leads.of_gives {R : Change} {q : Machine → Value → Prop} {step : Node → Eval (Option Value)}
    {nodes : List Node} {vs : List Value} {m m' : Machine} (hlasts : Lasts R q)
    (hstep : ∀ e ∈ nodes, ∀ s, R.Holds m s → Leads R (fun s => Result (q s)) (step e) s)
    (h : Gives step nodes m vs m') : R.Holds m m' ∧ ∀ v ∈ vs, q m' v := by
  induction h with
  | nil => exact ⟨R.refl _, List.forall_mem_nil _⟩
  | cons first usable _ ih =>
    obtain ⟨he, hmore⟩ := List.forall_mem_cons.mp hstep
    obtain ⟨hfirst, hv⟩ := (he _ (R.refl _)).of_ok first
    obtain ⟨hlater, hvs⟩ := ih fun e he s h => hmore e he s (R.trans hfirst h)
    refine ⟨R.trans hfirst hlater, List.forall_mem_cons.mpr ⟨?_, hvs⟩⟩
    exact hlasts hlater (hv.of_not_isError usable)

end Monkey
