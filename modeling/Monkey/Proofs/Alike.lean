import Monkey.Proofs.Contents
import Monkey.Proofs.Nesting

/-!
# Runs that end alike

`Tracks W post x m m'` compares two runs of one step, from the machines `m` and `m'`: both end with the
same result or with the same halt, and their machines are related as `W` says. The first of them has
changed no more than `W` allows, and what is given satisfies `post` in it.

There is one rule for each way in which evaluation puts steps together. What is said of a single run,
that it keeps to a change or to an invariant, is the case of two equal machines, so the same rules
serve for it.

What is done with a value is done in a later machine than the one in which the value was computed.
The rules therefore speak of properties `q` of values that last: once they hold, they hold in every
later machine (`Lasts`). Results of nodes are errors, or values of which `q` holds (`Result q`), or
there is no value; errors and the lack of a value are passed on everywhere, so the rules speak of `q`
alone.
-/

namespace Monkey

/-- If there is a value, it is an error or `q` holds of it. -/
def Result (q : Value → Prop) (result : Option Value) : Prop := ∀ v ∈ result, v.OrError q

namespace Result

variable {q q' : Value → Prop}

/-- No value at all is a result of any kind. -/
protected theorem none : Result q none := fun v hv => by cases hv

/-- So is an error. -/
protected theorem error (e : RuntimeError) : Result q (some (.error e)) := by
  rintro v ⟨⟩
  exact .inl rfl

protected theorem some {v : Value} (h : q v) : Result q (some v) := by
  rintro u ⟨⟩
  exact .inr h

theorem mono {result : Option Value} (hq : ∀ v, q v → q' v) (h : Result q result) :
    Result q' result :=
  fun v hv => (h v hv).imp_right (hq v)

/-- What a value that is no error satisfies. -/
theorem of_not_isError {v : Value} (h : Result q (some v)) (hv : ¬isError (some v)) : q v := by
  rcases h v rfl with herror | hq
  · cases v with
    | error e => exact absurd rfl hv
    | _ => cases herror
  · exact hq

/-- A wrapper that is opened leaves what it wraps. -/
theorem map_unwrap {result : Option Value} (hunwrap : ∀ v, q v → q' v.unwrap)
    (h : Result q result) : Result q' (result.map Value.unwrap) := by
  intro u hu
  obtain ⟨v, hv, rfl⟩ := Option.map_eq_some_iff.mp hu
  rcases h v hv with herror | hq
  · cases v with
    | error e => exact .inl rfl
    | _ => cases herror
  · exact .inr (hunwrap v hq)

/-- Only a wrapper stops statements without being an error, and only a wrapper can be opened. -/
theorem map_unwrap_of_not_stops {result : Option Value} (h : ¬stops result) :
    result.map Value.unwrap = result := by
  cases result with
  | none => rfl
  | some v =>
    cases v with
    | returned => exact absurd rfl h
    | _ => rfl

end Result

/-- What two runs keep to: their machines are related, and the first one changes no more than
allowed. -/
structure Course where
  Related : Machine → Machine → Prop
  change : Change

/-- Two runs may come to the machines `s` and `s'`, the first one from the machine `m`. -/
structure Course.Reaches (W : Course) (m s s' : Machine) : Prop where
  related : W.Related s s'
  change : W.change.Holds m s

namespace Course.Reaches

variable {W : Course} {m m' s s' t t' : Machine}

theorem refl (h : W.Related m m') : W.Reaches m m m' := ⟨h, W.change.refl m⟩

/-- One course and another one behind it. -/
theorem trans (h₁ : W.Reaches m s s') (h₂ : W.Reaches s t t') : W.Reaches m t t' :=
  ⟨h₂.related, W.change.trans h₁.change h₂.change⟩

end Course.Reaches

/-- Two runs end alike: with one result, of which `post` holds in the first machine, or with one
halt. -/
inductive Alike (after : Machine → Machine → Prop) (post : Machine → α → Prop) :
    EStateM.Result Halt Machine α → EStateM.Result Halt Machine α → Prop where
  | ok (value : post s a) (machines : after s s') : Alike after post (.ok a s) (.ok a s')
  | error (machines : after s s') : Alike after post (.error halt s) (.error halt s')

/-- Less is asked of the results and of the machines. -/
theorem Alike.mono {after after' : Machine → Machine → Prop} {post post' : Machine → α → Prop}
    {o o' : EStateM.Result Halt Machine α} (h : Alike after post o o')
    (hafter : ∀ s s', after s s' → after' s s')
    (hpost : ∀ s s' a, after s s' → post s a → post' s a) : Alike after' post' o o' := by
  cases h with
  | ok value machines => exact .ok (hpost _ _ _ machines value) (hafter _ _ machines)
  | error machines => exact .error (hafter _ _ machines)

/-- Two runs of a step, from the machines `m` and `m'`, end alike and keep to the course `W`. -/
def Tracks (W : Course) (post : Machine → α → Prop) (x : Eval α) (m m' : Machine) : Prop :=
  Alike (W.Reaches m) post (x m) (x m')

/-- So they do from all machines that two runs may come to, the first one from `m`. -/
def Onward (W : Course) (post : Machine → α → Prop) (x : Eval α) (m : Machine) : Prop :=
  ∀ ⦃s s'⦄, W.Reaches m s s' → Tracks W post x s s'

/-- What holds of a value in a machine holds in every later one. -/
def Lasts (R : Change) (q : Machine → Value → Prop) : Prop :=
  ∀ ⦃m m' v⦄, R.Holds m m' → q m v → q m' v

/-- What holds from a moment on holds from a later one on. -/
theorem Onward.later {W : Course} {post : Machine → α → Prop} {x : Eval α} {m s s' : Machine}
    (hx : Onward W post x m) (h : W.Reaches m s s') : Onward W post x s :=
  fun _ _ hlater => hx (h.trans hlater)

namespace Tracks

variable {W : Course} {post : Machine → α → Prop} {m m' : Machine}

/-- The machines behind both runs. -/
theorem after {x : Eval α} (hx : Tracks W post x m m') :
    W.Reaches m (x.after m) (x.after m') := by
  unfold Tracks at hx
  unfold Eval.after
  generalize x m = o, x m' = o' at hx
  cases hx with
  | ok _ machines => exact machines
  | error machines => exact machines

theorem mono {post' : Machine → α → Prop} {x : Eval α} (hx : Tracks W post x m m')
    (h : ∀ s s' a, W.Reaches m s s' → post s a → post' s a) : Tracks W post' x m m' :=
  Alike.mono hx (fun _ _ hafter => hafter) h

protected theorem pure {a : α} (hm : W.Related m m') (h : post m a) :
    Tracks W post (pure a : Eval α) m m' :=
  .ok h (.refl hm)

protected theorem throw (hm : W.Related m m') (halt : Halt) :
    Tracks W post (throw halt : Eval α) m m' :=
  .error (.refl hm)

/-- One step and then another: the second starts from the machines behind the first. -/
protected theorem bind {pre : Machine → β → Prop} {x : Eval β} {f : β → Eval α}
    (hx : Tracks W pre x m m')
    (hf : ∀ b s s', W.Reaches m s s' → pre s b → Tracks W post (f b) s s') :
    Tracks W post (x >>= f) m m' := by
  show Alike _ post (EStateM.bind x f m) (EStateM.bind x f m')
  unfold EStateM.bind
  unfold Tracks at hx
  generalize x m = o, x m' = o' at hx
  cases hx with
  | ok value machines =>
    exact Alike.mono (hf _ _ _ machines value) (fun _ _ => machines.trans) fun _ _ _ _ h => h
  | error machines => exact .error machines

/-- What is looked up may differ, as long as what follows ends alike. -/
theorem bind_get {f : Machine → Eval α} (h : Alike (W.Reaches m) post (f m m) (f m' m')) :
    Tracks W post (get >>= f) m m' := h

/-- The machines are changed, and what follows starts from the changed ones. -/
theorem bind_modifyGet {f : Machine → β × Machine} {g : β → Eval α} (hsame : (f m').1 = (f m).1)
    (hafter : W.Reaches m (f m).2 (f m').2) (hnext : Tracks W post (g (f m).1) (f m).2 (f m').2) :
    Tracks W post (modifyGet f >>= g) m m' := by
  show Alike _ post (g (f m).1 (f m).2) (g (f m').1 (f m').2)
  rw [hsame]
  exact Alike.mono hnext (fun _ _ => hafter.trans) fun _ _ _ _ h => h

/-! ## Rules for the parts of evaluation -/

section

variable {q q' q'' : Machine → Value → Prop} {step : Node → Eval (Option Value)}

theorem result_mono {x : Eval (Option Value)} (hx : Tracks W (fun s => Result (q s)) x m m')
    (h : ∀ s v, q s v → q' s v) : Tracks W (fun s => Result (q' s)) x m m' :=
  hx.mono fun s _ _ _ hresult => hresult.mono (h s)

/-- Both runs go on with the same value, or stop with the same error. -/
theorem withValue {x : Eval (Option Value)} {next : Value → Eval (Option Value)}
    (hx : Tracks W (fun s => Result (q s)) x m m')
    (hnext : ∀ v s s', W.Reaches m s s' → q s v →
      Tracks W (fun s => Result (q' s)) (next v) s s') :
    Tracks W (fun s => Result (q' s)) (withValue x next) m m' := by
  refine hx.bind fun result s s' hs hresult => ?_
  split
  · exact .pure hs.related .none
  · exact .pure hs.related (.error _)
  · next v herror =>
    refine hnext v s s' hs (hresult.of_not_isError fun h => ?_)
    cases v with
    | error e => exact herror e rfl
    | _ => cases h

/-- By induction on the statements, each of which starts where the one before it stopped. -/
theorem evaluateBlock {nodes : List Node} {last : Option Value} (hm : W.Related m m')
    (hstep : ∀ node ∈ nodes, Onward W (fun s => Result (q s)) (step node) m)
    (hlast : Result (q m) last) :
    Tracks W (fun s => Result (q s)) (evaluateBlock step last nodes) m m' := by
  induction nodes generalizing m m' last with
  | nil => exact .pure hm hlast
  | cons node nodes ih =>
    obtain ⟨hnode, hmore⟩ := List.forall_mem_cons.mp hstep
    rw [evaluateBlock_cons]
    refine (hnode (.refl hm)).bind fun result s s' hs hresult => ?_
    rw [Frame.resume]
    split
    · exact .pure hs.related hresult
    · exact ih hs.related (fun node hnode => (hmore node hnode).later hs) hresult

/-- A program opens the wrapper that ends it. -/
theorem evaluateProgram {nodes : List Node} {last : Option Value} (hm : W.Related m m')
    (hstep : ∀ node ∈ nodes, Onward W (fun s => Result (q s)) (step node) m)
    (hunwrap : ∀ s v, q s v → q' s v.unwrap) (hlast : Result (q' m) last) :
    Tracks W (fun s => Result (q' s)) (evaluateProgram step last nodes) m m' := by
  induction nodes generalizing m m' last with
  | nil => exact .pure hm hlast
  | cons node nodes ih =>
    obtain ⟨hnode, hmore⟩ := List.forall_mem_cons.mp hstep
    rw [evaluateProgram_cons]
    refine (hnode (.refl hm)).bind fun result s s' hs hresult => ?_
    have hopened := hresult.map_unwrap (hunwrap s)
    split
    · exact .pure hs.related hopened
    · next hstops =>
      rw [Result.map_unwrap_of_not_stops hstops] at hopened
      exact ih hs.related (fun node hnode => (hmore node hnode).later hs) hopened

/-- A round tells whether the loop ends, and with what. -/
theorem loopRound {c b : Eval (Option Value)} (hm : W.Related m m')
    (hc : Onward W (fun s => Result (q s)) c m) (hb : Onward W (fun s => Result (q' s)) b m) :
    Tracks W (fun s ending => ∀ result ∈ ending, Result (q'' s) result) (loopRound c b) m m' := by
  refine (hc (.refl hm)).bind fun condition s s' hs _ => ?_
  split
  · exact .pure hs.related (by rintro _ ⟨⟩; exact .none)
  · exact .pure hs.related (by rintro _ ⟨⟩; exact .error _)
  · split
    · refine (hb hs).bind fun result t t' ht _ => ?_
      split
      · exact .pure ht.related (by rintro _ ⟨⟩; exact .error _)
      · exact .pure ht.related (by rintro _ ⟨⟩)
    · exact .pure hs.related (by rintro _ ⟨⟩; exact .none)

/-- A loop gives no value, or an error. -/
theorem repeatRounds {c b : Eval (Option Value)} (hm : W.Related m m')
    (hc : Onward W (fun s => Result (q s)) c m) (hb : Onward W (fun s => Result (q' s)) b m)
    (limit : Nat) :
    Tracks W (fun s => Result (q'' s)) (repeatRounds (Monkey.loopRound c b) limit) m m' := by
  induction limit generalizing m m' with
  | zero => exact .throw hm _
  | succ limit ih =>
    have hround : Tracks W (fun s ending => ∀ result ∈ ending, Result (q'' s) result) _ m m' :=
      loopRound hm hc hb
    refine hround.bind fun ending s s' hs hending => ?_
    cases ending with
    | some result => exact .pure hs.related (hending result rfl)
    | none => exact ih hs.related (hc.later hs) (hb.later hs)

/-- The values that are there last while the others are made. -/
theorem withValues {nodes : List Node} {next : List Value → Eval (Option Value)}
    (hm : W.Related m m') (hlasts : Lasts W.change q)
    (hstep : ∀ node ∈ nodes, Onward W (fun s => Result (q s)) (step node) m)
    (hnext : ∀ vs s s', W.Reaches m s s' → (∀ v ∈ vs, q s v) →
      Tracks W (fun s => Result (q' s)) (next vs) s s') :
    Tracks W (fun s => Result (q' s)) (withValues step nodes next) m m' := by
  induction nodes generalizing m m' next with
  | nil => exact hnext [] m m' (.refl hm) (List.forall_mem_nil _)
  | cons node nodes ih =>
    obtain ⟨hnode, hmore⟩ := List.forall_mem_cons.mp hstep
    refine (hnode (.refl hm)).withValue fun v s s' hs hv => ?_
    refine ih hs.related (fun node hnode => (hmore node hnode).later hs) fun vs t t' ht hvs => ?_
    exact hnext (v :: vs) t t' (hs.trans ht)
      (List.forall_mem_cons.mpr ⟨hlasts ht.change hv, hvs⟩)

/-- The pairs of a dictionary; only a value with a hash key becomes a key. -/
theorem withPairs {nodes : List (Node × Node)} {pairs : Pairs}
    {next : Pairs → Eval (Option Value)} (hm : W.Related m m') (hlasts : Lasts W.change q')
    (hkeep : ∀ s k hash, k.hashKey? = some hash → q' s k)
    (hinsert : ∀ hash pair pairs s s', W.Reaches m s s' → q' s pair.1 ∧ q' s pair.2 →
      Pairs.Both (q' s) pairs →
      Tracks W (fun s => Pairs.Both (q' s)) (insertPair hash pair pairs) s s')
    (hkey : ∀ pair ∈ nodes, Onward W (fun s => Result (q s)) (step pair.1) m)
    (hvalue : ∀ pair ∈ nodes, Onward W (fun s => Result (q' s)) (step pair.2) m)
    (hnext : ∀ pairs s s', W.Reaches m s s' → Pairs.Both (q' s) pairs →
      Tracks W (fun s => Result (q'' s)) (next pairs) s s')
    (hpairs : pairs.Both (q' m)) :
    Tracks W (fun s => Result (q'' s)) (withPairs step pairs nodes next) m m' := by
  induction nodes generalizing m m' pairs with
  | nil => exact hnext pairs m m' (.refl hm) hpairs
  | cons pair nodes ih =>
    obtain ⟨hk, hkeys⟩ := List.forall_mem_cons.mp hkey
    obtain ⟨hv, hvalues⟩ := List.forall_mem_cons.mp hvalue
    refine (hk (.refl hm)).withValue fun key s s' hs _ => ?_
    cases hhash : key.hashKey? with
    | none => exact .pure hs.related (.error _)
    | some hash =>
      refine (hv hs).withValue fun value t t' ht hvalueq => ?_
      have hbefore : pairs.Both (q' t) := fun p hp =>
        ⟨hlasts (hs.trans ht).change (hpairs p hp).1, hlasts (hs.trans ht).change (hpairs p hp).2⟩
      refine (hinsert hash (key, value) pairs t t' (hs.trans ht)
        ⟨hkeep t key hash hhash, hvalueq⟩ hbefore).bind fun pairs u u' hu hpairs => ?_
      have hlater := (hs.trans ht).trans hu
      exact ih hu.related (fun hash pair pairs _ _ h => hinsert hash pair pairs _ _ (hlater.trans h))
        (fun p hp => (hkeys p hp).later hlater) (fun p hp => (hvalues p hp).later hlater)
        (fun pairs _ _ h => hnext pairs _ _ (hlater.trans h)) hpairs

/-- Only an expression has a value to bind. -/
theorem withBound {value : Node} {next : Value → Eval (Option Value)} (hm : W.Related m m')
    (hstep : Onward W (fun s => Result (q s)) (step value) m)
    (hnext : ∀ v s s', W.Reaches m s s' → q s v →
      Tracks W (fun s => Result (q' s)) (next v) s s') :
    Tracks W (fun s => Result (q' s)) (withBound step value next) m m' := by
  unfold Monkey.withBound
  split
  · exact (hstep (.refl hm)).withValue hnext
  · exact .pure hm .none

theorem map_some {y : Eval Value} (hy : Tracks W (fun s => Value.OrError (q s)) y m m') :
    Tracks W (fun s => Result (q s)) (some <$> y) m m' := by
  rw [← bind_pure_comp]
  refine hy.bind fun v s s' hs hv => .pure hs.related ?_
  rintro u ⟨⟩
  exact hv

end

end Tracks

end Monkey
