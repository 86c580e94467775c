import Monkey.Proofs.Resolved

/-!
# Steps of the parser

What can be said of a parser step, put together from what can be said of its parts.

* `Outcome.Meets` — a step ends, and what it produced or where it refused has a property. A rule for
  each way to build steps takes such a statement apart.
* `Reading.Precedes` — one reading comes before another: tokens are only passed, errors only added.
* `Reached`, `Refused` — the two ways in which every production ends: with a part of the resolved
  grammar, or with an error.
-/

namespace Monkey

open Parse

/-! ## Ends of steps -/

/-- A step was not stopped by a bound, and it ended as described. -/
def Outcome.Meets (done : α → Reading → Prop) (refused : Reading → Prop) : Outcome α → Prop
  | .done a s => done a s
  | .refused s => refused s
  | .exhausted => False

section Rules

variable {r : Reading} {F : Reading → Prop}

/-- What follows from what is known of an outcome is known of it as well. -/
theorem Outcome.Meets.mono {o : Outcome α} {P Q : α → Reading → Prop} {E : Reading → Prop}
    (h : o.Meets P E) (hdone : ∀ a s, P a s → Q a s) (hrefused : ∀ s, E s → F s) :
    o.Meets Q F := by
  cases o with
  | done a s => exact hdone a s h
  | refused s => exact hrefused s h
  | exhausted => exact h

/-- A step that can not refuse produces something. -/
theorem Outcome.Meets.exists_done {o : Outcome α} {P : α → Reading → Prop}
    (h : o.Meets P fun _ => False) : ∃ a s, o = .done a s ∧ P a s := by
  cases o with
  | done a s => exact ⟨a, s, rfl, h⟩
  | refused s => exact h.elim
  | exhausted => exact h.elim

/-- The second step starts where the first one ends; a refusal of either is one of both. -/
@[simp]
theorem meets_bind {p : Parse α} {f : α → Parse β} {Q : β → Reading → Prop} :
    ((p >>= f) r).Meets Q F ↔ (p r).Meets (fun a s => (f a s).Meets Q F) F := by
  show (Parse.bind p f r).Meets Q F ↔ _
  unfold Parse.bind
  cases p r <;> rfl

@[simp]
theorem meets_pure {a : α} {Q : α → Reading → Prop} :
    ((Pure.pure a : Parse α) r).Meets Q F ↔ Q a r := Iff.rfl

@[simp]
theorem meets_refuse {Q : α → Reading → Prop} : ((refuse : Parse α) r).Meets Q F ↔ F r := Iff.rfl

@[simp]
theorem meets_current {Q : Token → Reading → Prop} :
    (Parse.current r).Meets Q F ↔ Q r.current r := Iff.rfl

@[simp]
theorem meets_peek {Q : Token → Reading → Prop} : (Parse.peek r).Meets Q F ↔ Q r.peek r := Iff.rfl

@[simp]
theorem meets_advance {Q : Unit → Reading → Prop} :
    (Parse.advance r).Meets Q F ↔ Q () r.advance := Iff.rfl

@[simp]
theorem meets_report {e : SyntaxError} {Q : Unit → Reading → Prop} :
    (Parse.report e r).Meets Q F ↔ Q () (r.report e) := Iff.rfl

/-- A loop is given one round more than there are tokens. -/
@[simp]
theorem meets_rounds {Q : Nat → Reading → Prop} :
    (rounds r).Meets Q F ↔ Q (r.tokens.length + 1) r := Iff.rfl

@[simp]
theorem meets_currentName {Q : Name → Reading → Prop} :
    (currentName r).Meets Q F ↔ Q ⟨r.current, r.current.literal⟩ r := Iff.rfl

@[simp]
theorem meets_ite {c : Prop} [Decidable c] {p q : Parse α} {Q : α → Reading → Prop} :
    ((if c then p else q) r).Meets Q F ↔ (c → (p r).Meets Q F) ∧ (¬c → (q r).Meets Q F) := by
  split <;> simp [*]

/-- A token that is not the expected one is reported, with the one that was expected. -/
@[simp]
theorem meets_expect {kind : TokenKind} {Q : Unit → Reading → Prop} :
    (expect kind r).Meets Q F ↔ (r.peek.kind = kind → Q () r.advance) ∧
      (r.peek.kind ≠ kind → F (r.report (.unexpected kind r.peek.kind))) := by
  simp [expect]

/-- A semicolon may be left out. -/
@[simp]
theorem meets_skipSemicolon {Q : Unit → Reading → Prop} :
    (skipSemicolon r).Meets Q F ↔
      (r.peek.kind = .semicolon → Q () r.advance) ∧ (r.peek.kind ≠ .semicolon → Q () r) := by
  simp [skipSemicolon]

/-- An attempt turns a refusal into the lack of a result. -/
@[simp]
theorem meets_attempt {p : Parse α} {Q : Option α → Reading → Prop} :
    (attempt p r).Meets Q F ↔ (p r).Meets (fun a s => Q (some a) s) (fun s => Q none s) := by
  unfold attempt
  cases p r <;> rfl

@[simp]
theorem meets_ofOption_some {a : α} {Q : α → Reading → Prop} :
    (ofOption (some a) r).Meets Q F ↔ Q a r := Iff.rfl

@[simp]
theorem meets_ofOption_none {Q : α → Reading → Prop} :
    ((ofOption none : Parse α) r).Meets Q F ↔ F r := Iff.rfl

/-- The next token extends an expression if it binds tighter than the context; a semicolon binds
tighter than nothing. -/
theorem meets_extends {context : Precedence} {Q : Bool → Reading → Prop}
    (htight : Binds context r.peek.kind → Q true r) (hloose : ¬Binds context r.peek.kind → Q false r) :
    (extends? context r).Meets Q F := by
  have hsemi : Binds context r.peek.kind → r.peek.kind ≠ .semicolon := by
    intro h hk
    rw [hk] at h
    exact absurd h (Nat.not_lt_zero _)
  simp only [extends?, meets_bind, meets_peek, meets_pure]
  by_cases h : Binds context r.peek.kind
  · rw [decide_eq_true ⟨hsemi h, h⟩]
    exact htight h
  · rw [decide_eq_false fun hc => h hc.2]
    exact hloose h

end Rules

/-! ## Readings -/

namespace Reading

variable {r s t : Reading}

/-- The tokens behind the current one. -/
def behind (r : Reading) : List Token := r.tokens.tail

@[simp]
theorem tokens_advance (r : Reading) : r.advance.tokens = r.behind := rfl

@[simp]
theorem current_advance (r : Reading) : r.advance.current = r.peek := rfl

@[simp]
theorem errors_advance (r : Reading) : r.advance.errors = r.errors := rfl

@[simp]
theorem tokens_report (r : Reading) (e : SyntaxError) : (r.report e).tokens = r.tokens := rfl

/-- One token is behind the others. -/
theorem length_behind (r : Reading) : r.behind.length = r.tokens.length - 1 :=
  List.length_tail

theorem length_advance_le (h : r.tokens.length ≤ n + 1) : r.advance.tokens.length ≤ n := by
  rw [tokens_advance, length_behind]
  omega

/-- The tokens are the current one and those behind it. -/
theorem tokens_eq_cons_of_ne_nil (h : r.tokens ≠ []) : r.tokens = r.current :: r.behind := by
  obtain ⟨first, more, hr⟩ := List.exists_cons_of_ne_nil h
  simp [current, behind, hr]

/-- A current token that does not mark the end of the input is the first that is left. -/
theorem tokens_eq_cons (h : r.current.kind ≠ .eof) : r.tokens = r.current :: r.behind := by
  refine tokens_eq_cons_of_ne_nil fun hr => h ?_
  simp [current, hr, Token.eof]

/-- The tokens behind the current one are the next one and those behind that. -/
theorem behind_eq_cons (h : r.peek.kind ≠ .eof) : r.behind = r.peek :: r.advance.behind :=
  tokens_eq_cons (r := r.advance) h

theorem length_pos_of_current (h : r.current.kind ≠ .eof) : 0 < r.tokens.length := by
  rw [tokens_eq_cons h]
  exact Nat.succ_pos _

/-- Where the next token is not the end of the input there are two tokens. -/
theorem length_of_peek (h : r.peek.kind ≠ .eof) :
    r.advance.advance.tokens.length + 2 = r.tokens.length := by
  have hlen := length_behind r
  rw [behind_eq_cons h, List.length_cons] at hlen
  rw [tokens_advance]
  omega

/-- No token marks the end of the input. -/
def Unbroken (ts : List Token) : Prop := ∀ t ∈ ts, t.kind ≠ .eof

/-- The end of the input has no token unless a null character was read. -/
theorem Unbroken.eq_nil (h : Unbroken r.tokens) (hr : r.current.kind = .eof) : r.tokens = [] := by
  cases ht : r.tokens with
  | nil => rfl
  | cons first more =>
    have hfirst : r.current = first := by simp [current, ht]
    exact absurd (hfirst ▸ hr) (h first (by simp [ht]))

/-- From `r` to `s` tokens were only passed and errors only added. -/
structure Precedes (r s : Reading) : Prop where
  tokens : s.tokens <:+ r.tokens
  errors : s.errors = [] → r.errors = []

namespace Precedes

theorem refl (r : Reading) : r.Precedes r := ⟨List.suffix_rfl, id⟩

/-- The errors in front of one reading are there in front of the next. -/
theorem trans (h₁ : r.Precedes s) (h₂ : s.Precedes t) : r.Precedes t :=
  ⟨h₂.tokens.trans h₁.tokens, fun h => h₁.errors (h₂.errors h)⟩

theorem advance (h : r.Precedes s) : r.Precedes s.advance :=
  ⟨(List.tail_suffix _).trans h.tokens, h.errors⟩

theorem length_le (h : r.Precedes s) : s.tokens.length ≤ r.tokens.length := h.tokens.length_le

/-- What follows unbroken tokens is unbroken. -/
theorem unbroken (h : r.Precedes s) (hr : Unbroken r.tokens) : Unbroken s.tokens :=
  fun t ht => hr t (h.tokens.mem ht)

end Precedes

end Reading

open Reading

/-! ## Parts and refusals -/

/-- Between `r` and `s` a part was read: `ts` begins with it and goes on with `rest`. Nothing is said
of the part if an error was recorded or the end of the input is marked before the end. -/
structure Reached (r s : Reading) (part : Part) (ts rest : List Token) : Prop where
  precedes : r.Precedes s
  reads : Unbroken r.tokens → s.errors = [] → Reads part ts rest

/-- Between `r` and `s` an error was recorded. -/
structure Refused (r s : Reading) : Prop where
  precedes : r.Precedes s
  errors_ne : s.errors ≠ []

/-- A report is a refusal of what was read up to it. -/
theorem Reading.Precedes.report {r s : Reading} (h : r.Precedes s) (e : SyntaxError) :
    Refused r (s.report e) :=
  ⟨⟨h.tokens, fun he => absurd he (by simp [Reading.report])⟩, by simp [Reading.report]⟩

/-- A later refusal is a refusal of what was read before. -/
theorem Reading.Precedes.refused {r s t : Reading} (h : r.Precedes s) (hs : Refused s t) :
    Refused r t :=
  ⟨h.trans hs.precedes, hs.errors_ne⟩

/-- An error that was recorded stays, whatever is read behind it. -/
theorem Refused.trans {r s t : Reading} (h : Refused r s) (ht : s.Precedes t) : Refused r t :=
  ⟨h.precedes.trans ht, fun he => h.errors_ne (ht.errors he)⟩

/-- A step that begins at `r` reads a part from the current token on and stops at its last token, or
it refuses with an error. -/
def Parses (part : α → Part) (p : Parse α) (r : Reading) : Prop :=
  (p r).Meets (fun a s => Reached r s (part a) r.tokens s.behind) (Refused r)

/-- The expressions of a level are read from as many tokens. -/
def Level.ReadsExpressions (level : Level) (n : Nat) : Prop :=
  ∀ context r, r.tokens.length ≤ n → Parses (.expression context) (level.expression context) r

/-- The statements of a level are read from as many tokens. -/
def Level.ReadsStatements (level : Level) (n : Nat) : Prop :=
  ∀ r, r.tokens.length ≤ n → Parses .statement level.statement r

end Monkey
