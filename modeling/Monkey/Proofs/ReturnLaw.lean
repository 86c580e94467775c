import Mathlib
import Monkey.Proofs.Route

/-!
# What a return ends

A `return` in a function should end the call: nothing further of the body is executed, and the call
gives the value that is returned. The result of a `return` is a wrapper around the value, which blocks
and branches pass on. A loop does not: it takes the wrapper for the result of a round and goes on. And
where there is no value to return, there is no wrapper either, and the statements behind it follow.

`returnsAtOnce_iff` says whether a `return` ends the call, for every nesting of blocks, loops and
branches that stand as statements (`Arrives`). A `return` within an expression is left out. There an
`if` stands as an operand, an argument, a condition or the value of a binding, the construct around it
takes the wrapper for a value like any other and goes on, and so the call need not end, with no loop
in sight.
-/

namespace Monkey

namespace Frame

/-- Whether a construct is a loop. -/
def isRound : Frame → Bool
  | round .. => true
  | content | branch | block _ => false

/-- Whether a construct has nothing to do behind the part it is around. -/
def isLast : Frame → Bool
  | block later => later.isEmpty
  | content | branch => true
  | round .. => false

/-- A construct that is resumed executes a further statement or a further round. -/
def GoesOn (step : Node → Eval (Option Value)) : Frame → Option Value → Machine → Prop
  | content, _, _ | branch, _, _ => False
  | block later, result, _ => ¬stops result ∧ later ≠ []
  | round condition _ limit, result, m => ¬isError result ∧ 0 < limit ∧
      ∃ v m', step condition m = .ok (some v) m' ∧ ¬isError (some v) ∧ v.truthy

end Frame

/-- When the frames are resumed, no further statement and no further round is executed. -/
def Quiet (scope : Nat) : Nat → List Frame → Option Value → Machine → Prop
  | _, [], _, _ => True
  | d, frame :: frames, result, m =>
    ¬frame.GoesOn (fun part => evaluate d part scope) result m ∧
      ∀ result' m', frame.resume (fun part => evaluate d part scope) result m = .ok result' m' →
        Quiet scope (d + 1) frames result' m'

/-- A call ends as a `return` says: behind it, where the frames are resumed with its result, nothing
further is executed, and the call gives the value. -/
structure ReturnsAtOnce (scope d : Nat) (frames : List Frame) (value result : Option Value)
    (m : Machine) (call : EStateM.Result Halt Machine (Option Value)) : Prop where
  quiet : Quiet scope d frames result m
  gives : ∃ m', call = .ok value m'

/-! ## Blocks and branches -/

section

variable {step : Node → Eval (Option Value)} {scope : Nat} {frames : List Frame} {frame : Frame}
  {result result' : Option Value} {m m' : Machine}

/-- Blocks and branches pass on what ends a block; what does not end it they pass on if nothing stands
behind. -/
theorem Frame.resume_of_not_isRound (hround : ¬frame.isRound)
    (hpass : stops result ∨ frame.isLast) :
    frame.resume step result m = .ok result m ∧ ¬frame.GoesOn step result m := by
  cases frame with
  | content | branch => exact ⟨rfl, id⟩
  | block later =>
    by_cases hstops : stops result
    · exact ⟨by rw [resume, if_pos hstops]; rfl, fun h => h.1 hstops⟩
    · have hlater : later = [] := List.isEmpty_iff.mp (hpass.resolve_left hstops)
      subst hlater
      exact ⟨by rw [resume, if_neg hstops]; rfl, fun h => h.2 rfl⟩
  | round => exact absurd rfl hround

theorem resumeAll_of_not_isRound (d : Nat) (hround : ∀ f ∈ frames, ¬f.isRound)
    (hpass : stops result ∨ ∀ f ∈ frames, f.isLast) :
    resumeAll scope d frames result m = .ok result m ∧ Quiet scope d frames result m := by
  induction frames generalizing d with
  | nil => exact ⟨rfl, trivial⟩
  | cons frame frames ih =>
    obtain ⟨hresume, hquiet⟩ :=
      Frame.resume_of_not_isRound (m := m)
        (hround frame List.mem_cons_self) (hpass.imp_right fun h => h frame List.mem_cons_self)
    obtain ⟨hresumeAll, hquietAll⟩ := ih (d + 1)
      (fun f hf => hround f (List.mem_cons_of_mem _ hf))
      (hpass.imp_right fun h f hf => h f (List.mem_cons_of_mem _ hf))
    refine ⟨(Eval.bind_ok _ hresume).trans hresumeAll, hquiet, fun result' m' h => ?_⟩
    rw [hresume] at h
    cases h
    exact hquietAll

/-- If there is no result and nothing further is executed, nothing stands behind. -/
theorem isLast_of_quiet {d : Nat} (hround : ∀ f ∈ frames, ¬f.isRound)
    (hquiet : Quiet scope d frames none m) : ∀ f ∈ frames, f.isLast := by
  induction frames generalizing d with
  | nil => exact fun f hf => absurd hf List.not_mem_nil
  | cons frame frames ih =>
    have hlast : frame.isLast := by
      cases frame with
      | content | branch => rfl
      | block later =>
        by_cases hlater : later = []
        · rw [hlater]; rfl
        · exact absurd ⟨by decide, hlater⟩ hquiet.1
      | round => exact absurd rfl (hround _ List.mem_cons_self)
    have hmore := ih (fun f hf => hround f (List.mem_cons_of_mem _ hf)) <| hquiet.2 none m
      (Frame.resume_of_not_isRound (hround frame List.mem_cons_self) (.inr hlast)).1
    exact List.forall_mem_cons.mpr ⟨hlast, hmore⟩

/-! ## Loops -/

/-- A result that is no value of a `return`. -/
def Silent (result : Option Value) : Prop := result = none ∨ isError result

theorem loopRound_silent {condition body : Eval (Option Value)}
    (h : loopRound condition body m = .ok (some result) m') : Silent result := by
  rw [loopRound_eq] at h
  obtain ⟨c, m₁, _, h⟩ := Eval.bind_eq_ok h
  by_cases hc : isError c
  · rw [if_pos hc] at h
    cases h
    exact .inr hc
  rw [if_neg hc] at h
  by_cases htrue : c.any Value.truthy
  · rw [if_pos htrue] at h
    obtain ⟨r, m₂, _, h⟩ := Eval.bind_eq_ok h
    by_cases hr : isError r
    · rw [if_pos hr] at h
      cases h
      exact .inr hr
    · rw [if_neg hr] at h
      cases h
  · rw [if_neg htrue] at h
    cases h
    exact .inl rfl

/-- **A loop gives no value.** -/
theorem repeatRounds_silent {condition body : Eval (Option Value)} {limit : Nat}
    (h : repeatRounds (loopRound condition body) limit m = .ok result m') : Silent result := by
  induction limit generalizing m with
  | zero => cases h
  | succ limit ih =>
    obtain ⟨ending, m₁, hround, hrest⟩ := Eval.bind_eq_ok h
    cases ending with
    | none => exact ih hrest
    | some r =>
      cases hrest
      exact loopRound_silent hround

theorem Frame.resume_silent (hsilent : Silent result) (hquiet : ¬frame.GoesOn step result m)
    (h : frame.resume step result m = .ok result' m') : Silent result' := by
  cases frame with
  | content | branch =>
    cases h
    exact hsilent
  | block later =>
    by_cases hstops : stops result
    · rw [resume, if_pos hstops] at h
      cases h
      exact hsilent
    · have hlater : later = [] := Classical.byContradiction fun hne => hquiet ⟨hstops, hne⟩
      subst hlater
      rw [resume, if_neg hstops] at h
      cases h
      exact hsilent
  | round condition body limit =>
    by_cases herror : isError result
    · rw [resume, if_pos herror] at h
      cases h
      exact hsilent
    · rw [resume, if_neg herror] at h
      exact repeatRounds_silent h

theorem resumeAll_silent {d : Nat} (hsilent : Silent result) (hquiet : Quiet scope d frames result m)
    (h : resumeAll scope d frames result m = .ok result' m') : Silent result' := by
  induction frames generalizing d result m with
  | nil =>
    cases h
    exact hsilent
  | cons frame frames ih =>
    obtain ⟨r, m₁, hresume, hmore⟩ := Eval.bind_eq_ok h
    exact ih (Frame.resume_silent hsilent hquiet.1 hresume) (hquiet.2 r m₁ hresume) hmore

/-- **Behind a loop the wrapper is lost.** If a `return` stands in a loop and nothing further is
executed, there is no value. -/
theorem resumeAll_of_isRound {d : Nat} (hround : ∃ f ∈ frames, f.isRound) (hstops : stops result)
    (herror : ¬isError result) (hquiet : Quiet scope d frames result m)
    (h : resumeAll scope d frames result m = .ok result' m') : Silent result' := by
  induction frames generalizing d with
  | nil =>
    obtain ⟨f, hf, _⟩ := hround
    exact absurd hf List.not_mem_nil
  | cons frame frames ih =>
    obtain ⟨r, m₁, hresume, hmore⟩ := Eval.bind_eq_ok h
    have hrest := hquiet.2 r m₁ hresume
    by_cases hframe : frame.isRound
    · have hsilent : Silent r := by
        cases frame with
        | round condition body limit =>
          rw [Frame.resume, if_neg herror] at hresume
          exact repeatRounds_silent hresume
        | content | branch | block => cases hframe
      exact resumeAll_silent hsilent hrest hmore
    · -- the frame passes the wrapper on, so the loop is further out
      rw [(Frame.resume_of_not_isRound hframe (.inl hstops)).1] at hresume
      cases hresume
      obtain ⟨f, hf, hfr⟩ := hround
      rcases List.mem_cons.mp hf with rfl | hf
      · exact absurd hfr hframe
      · exact ih ⟨f, hf, hfr⟩ hrest hmore

end

/-! ## Calls -/

/-- **A call on its route.** A call that arrives at a part executes the part, resumes the frames with
its result and opens a wrapper. -/
theorem applyFunction_of_arrives (identity : Nat) {depth d scope : Nat} {parameters : List Name}
    {arguments : List Value} {bindings : List Binding} {body part : Node} {frames : List Frame}
    {result : Option Value} {m m₁ m₂ : Machine}
    (hbind : bindParameters [] parameters arguments = .ok bindings)
    (hroute : Arrives m.scopes.size depth body (m.addScope ⟨some scope, bindings⟩).2 frames d part m₁)
    (hpart : evaluate d part m.scopes.size m₁ = .ok result m₂) :
    applyFunction (evaluate depth) (.function identity parameters body scope) arguments m =
      (resumeAll m.scopes.size d frames result >>= fun r => pure (r.map Value.unwrap)) m₂ := by
  rw [applyFunction_ok m hbind, Eval.bind_eq_bind _ (evaluate_of_arrives hroute), bind_assoc,
    Eval.bind_ok _ hpart]

theorem evaluate_returning_none {d scope : Nat} {e : Node} {m m' : Machine} (t : Token)
    (hvalue : evaluate d e scope m = .ok none m') :
    evaluate (d + 1) (.returning t e) scope m = .ok none m' := by
  show withValue (evaluate d e scope) _ m = _
  rw [withValue, Eval.bind_ok _ hvalue]
  rfl

theorem evaluate_returning_some {d scope : Nat} {e : Node} {v : Value} {m m' : Machine} (t : Token)
    (hvalue : evaluate d e scope m = .ok (some v) m') (herror : ¬isError (some v)) :
    evaluate (d + 1) (.returning t e) scope m =
      .ok (some (.returned m'.nextIdentity v)) { m' with nextIdentity := m'.nextIdentity + 1 } := by
  show withValue (evaluate d e scope) _ m = _
  rw [withValue_ok _ hvalue herror]
  rfl

theorem Silent.map_unwrap_ne {result : Option Value} {v : Value} (h : Silent result)
    (hv : ¬isError (some v)) : result.map Value.unwrap ≠ some v := by
  rcases h with rfl | herror
  · exact fun h => by cases h
  · cases result with
    | none => cases herror
    | some w =>
      cases w with
      | error e =>
        intro h
        cases h
        exact hv rfl
      | _ => cases herror

/-- **When a `return` ends the call.** Let a `return` be executed in a call, at any nesting in blocks,
loops and branches that stand as statements, and let its expression evaluate without an error. If it
gives a value, the call ends with that value and nothing further is executed exactly if the `return`
stands in no loop; the machine is then left as it is right behind the `return`. If it gives no value,
and there is no loop, the call ends there exactly if nothing stands behind the `return` anyway.

A `return` in an `if` that is part of an expression or of a binding is not reached by such a nesting,
and nothing is said about it. -/
theorem returnsAtOnce_iff (identity : Nat) {depth d scope : Nat} {parameters : List Name}
    {arguments : List Value} {bindings : List Binding} {body e : Node} {t : Token}
    {frames : List Frame} {value result : Option Value} {m m₁ m₂ m₃ : Machine}
    (hbind : bindParameters [] parameters arguments = .ok bindings)
    (hroute : Arrives m.scopes.size depth body (m.addScope ⟨some scope, bindings⟩).2 frames (d + 1)
      (.returning t e) m₁)
    (hvalue : evaluate d e m.scopes.size m₁ = .ok value m₂) (herror : ¬isError value)
    (hreturn : evaluate (d + 1) (.returning t e) m.scopes.size m₁ = .ok result m₃) :
    let call := applyFunction (evaluate depth) (.function identity parameters body scope) arguments m
    let law := ReturnsAtOnce m.scopes.size (d + 1) frames value result m₃ call
    (value ≠ none → (law ↔ ∀ f ∈ frames, ¬f.isRound) ∧
      ((∀ f ∈ frames, ¬f.isRound) → call = .ok value m₃)) ∧
    (value = none → (∀ f ∈ frames, ¬f.isRound) → (law ↔ ∀ f ∈ frames, f.isLast)) := by
  intro call law
  have hcall : call = (resumeAll m.scopes.size (d + 1) frames result >>= fun r =>
      pure (r.map Value.unwrap)) m₃ := applyFunction_of_arrives identity hbind hroute hreturn
  cases value with
  | none =>
    have hresult : result = none := by
      rw [evaluate_returning_none t hvalue] at hreturn
      cases hreturn
      rfl
    subst hresult
    refine ⟨fun h => absurd rfl h, fun _ hround => ?_⟩
    refine ⟨fun h => isLast_of_quiet hround h.quiet, fun hlast => ?_⟩
    obtain ⟨hresume, hquiet⟩ := resumeAll_of_not_isRound (d + 1) hround (.inr hlast)
    refine ⟨hquiet, m₃, ?_⟩
    rw [hcall, Eval.bind_ok _ hresume]
    rfl
  | some v =>
    have hresult : result = some (.returned m₂.nextIdentity v) := by
      rw [evaluate_returning_some t hvalue herror] at hreturn
      cases hreturn
      rfl
    subst hresult
    have hstops : stops (some (.returned m₂.nextIdentity v)) := rfl
    refine ⟨fun _ => ?_, fun h => by cases h⟩
    have hends : (∀ f ∈ frames, ¬f.isRound) → law ∧ call = .ok (some v) m₃ := by
      intro hround
      obtain ⟨hresume, hquiet⟩ := resumeAll_of_not_isRound (d + 1) hround (.inl hstops)
      have hgives : call = .ok (some v) m₃ := by
        rw [hcall, Eval.bind_ok _ hresume]
        rfl
      exact ⟨⟨hquiet, m₃, hgives⟩, hgives⟩
    refine ⟨⟨fun ⟨hquiet, m', hgives⟩ f hf hround => ?_, fun h => (hends h).1⟩, fun h => (hends h).2⟩
    -- behind a loop the call gives nothing or an error, and the value is neither
    rw [hcall] at hgives
    obtain ⟨r, m₄, hresume, hunwrap⟩ := Eval.bind_eq_ok hgives
    have hsilent := resumeAll_of_isRound ⟨f, hf, hround⟩ hstops Bool.false_ne_true
      hquiet hresume
    exact hsilent.map_unwrap_ne herror (EStateM.Result.ok.inj hunwrap).1

/-! ## Two functions -/

def flag : Name := ⟨⟨.ident, "x"⟩, "x"⟩

def returnOne : Node := .returning ⟨.returnWord, "return"⟩ (.integer ⟨.int, "1"⟩ 1)

def giveTwo : Node := .statement ⟨.int, "2"⟩ (.integer ⟨.int, "2"⟩ 2)

/-- The machine in a call with one argument, from a fresh machine. -/
def flagged (x : Bool) (identity : Nat) : Machine :=
  ⟨#[⟨none, []⟩, ⟨some 0, [⟨"x", false, .bool x⟩]⟩], identity, [], #[]⟩

/-- The body `if (x) { return 1; } 2`. -/
def returnInBranch : Node :=
  .block ⟨.lbrace, "\x7b"⟩
    [.statement ⟨.ifWord, "if"⟩
      (.ifThen ⟨.ifWord, "if"⟩ (.identifier flag) (.block ⟨.lbrace, "\x7b"⟩ [returnOne])), giveTwo]

def clearFlag : Node :=
  .assignment ⟨.assign, "="⟩ flag (.boolean ⟨.falseWord, "false"⟩ false)

/-- The body `while (x) { x = false; return 1; } 2`. -/
def returnInLoop : Node :=
  .block ⟨.lbrace, "\x7b"⟩
    [.loop ⟨.whileWord, "while"⟩ (.identifier flag)
      (.block ⟨.lbrace, "\x7b"⟩ [clearFlag, returnOne]), giveTwo]

/-- In a branch the `return` ends the call, and the statement behind the `if` is not executed. -/
theorem returnsAtOnce_returnInBranch :
    Arrives 1 9 returnInBranch (flagged true 0) [.block [], .branch, .content, .block [giveTwo]] 5
      returnOne (flagged true 0) ∧
    applyFunction (evaluate 9) (.function 0 [flag] returnInBranch 0) [.bool true]
      (Machine.start []) = .ok (some (.int 1)) (flagged true 1) := by
  have hbind : bindParameters [] [flag] [.bool true] = .ok [⟨"x", false, .bool true⟩] := by rfl
  have hroute : Arrives 1 9 returnInBranch (flagged true 0)
      [.block [], .branch, .content, .block [giveTwo]] 5 returnOne (flagged true 0) :=
    .enter (.enter (.enter (.enter .start (.block .nil)) .content)
      (.ifThen (by cbv) (by decide) rfl)) (.block .nil)
  have hvalue : evaluate 4 (.integer ⟨.int, "1"⟩ 1) 1 (flagged true 0) =
      .ok (some (.int 1)) (flagged true 0) := rfl
  have hreturn : evaluate 5 returnOne 1 (flagged true 0) =
      .ok (some (.returned 0 (.int 1))) (flagged true 1) := rfl
  have hlaw := returnsAtOnce_iff 0 (m := Machine.start []) hbind hroute hvalue (by decide) hreturn
  exact ⟨hroute, (hlaw.1 (by simp)).2 (by decide)⟩

/-- A loop goes on behind a `return`: the call gives 2 and not the 1 that was returned. -/
theorem not_returnsAtOnce_returnInLoop :
    ∃ frames d m₁ m₂ m₃ result,
      Arrives 1 9 returnInLoop (flagged true 0) frames (d + 1) returnOne m₁ ∧
      evaluate d (.integer ⟨.int, "1"⟩ 1) 1 m₁ = .ok (some (.int 1)) m₂ ∧
      evaluate (d + 1) returnOne 1 m₁ = .ok result m₃ ∧
      applyFunction (evaluate 9) (.function 0 [flag] returnInLoop 0) [.bool true]
        (Machine.start []) = .ok (some (.int 2)) (flagged false 1) ∧
      ¬ReturnsAtOnce 1 (d + 1) frames (some (.int 1)) result m₃
        (applyFunction (evaluate 9) (.function 0 [flag] returnInLoop 0) [.bool true]
          (Machine.start [])) := by
  have hcall : applyFunction (evaluate 9) (.function 0 [flag] returnInLoop 0) [.bool true]
      (Machine.start []) = .ok (some (.int 2)) (flagged false 1) := by cbv
  have hclear : evaluate 6 clearFlag 1 (flagged true 0) = .ok none (flagged false 0) := by cbv
  have hroute : Arrives 1 9 returnInLoop (flagged true 0)
      [.block [], .round (.identifier flag) (.block ⟨.lbrace, "\x7b"⟩ [clearFlag, returnOne])
        (roundLimit - 1), .block [giveTwo]] 6 returnOne (flagged false 0) :=
    .enter (.enter (.enter .start (.block .nil))
      (.loop .zero (by decide) (by cbv) (by decide) rfl)) (.block (.cons hclear (by decide) .nil))
  refine ⟨_, 5, _, _, _, _, hroute, rfl, rfl, hcall, fun h => ?_⟩
  obtain ⟨m', hgives⟩ := h.gives
  rw [hcall] at hgives
  cases hgives

end Monkey
