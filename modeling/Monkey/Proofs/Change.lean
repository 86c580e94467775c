import Monkey.Evaluation

/-!
# What evaluation changes

A `Change` relates the machine before a step to the machine after it, whether the step ended with a
result or halted. A step that is put together from steps that keep within a change keeps within it
too.

Operators and built-in functions neither look at the scopes nor change them (`Oblivious.applyInfix`,
`Oblivious.call`).
-/

namespace Monkey

/-- The machine after a step, whether it ended with a result or halted. -/
def Eval.after (x : Eval α) (m : Machine) : Machine :=
  match x m with
  | .ok _ s => s
  | .error _ s => s

/-- The machine behind a step that has ended with a result. -/
theorem Eval.after_of_ok {x : Eval α} {m m' : Machine} {a : α} (h : x m = .ok a m') :
    x.after m = m' := by
  rw [Eval.after, h]

/-- What may happen to the machine: nothing, and one change after the other. -/
structure Change where
  Holds : Machine → Machine → Prop
  refl : ∀ m, Holds m m
  trans : ∀ {m₁ m₂ m₃}, Holds m₁ m₂ → Holds m₂ m₃ → Holds m₁ m₃

/-- Anything may happen. -/
def Change.any : Change where
  Holds _ _ := True
  refl _ := trivial
  trans _ _ := trivial

/-- A step changes no more than `R` allows, from whatever machine it starts. -/
def Keeps (R : Change) (x : Eval α) : Prop := ∀ m, R.Holds m (x.after m)

/-- One step and then another: the second starts from the machine behind the first. -/
theorem Change.holds_bind (R : Change) {x : Eval α} {f : α → Eval β} {m : Machine}
    (hx : R.Holds m (x.after m)) (hf : ∀ a m', x m = .ok a m' → R.Holds m' ((f a).after m')) :
    R.Holds m ((x >>= f).after m) := by
  show R.Holds m (Eval.after (EStateM.bind x f) m)
  unfold Eval.after EStateM.bind at *
  cases hm : x m with
  | ok a s =>
    rw [hm] at hx
    exact R.trans hx (hf a s hm)
  | error e s =>
    rw [hm] at hx
    exact hx

/-- An assignment changes nothing, or it declares the name anew. -/
theorem Change.holds_assign {R : Change} {m : Machine} {scope : Nat} {name : String} {v : Value}
    (h : R.Holds m (m.declare scope ⟨name, false, v⟩)) : R.Holds m (m.assign scope name v).2 := by
  unfold Machine.assign
  split
  · exact R.refl m
  · split
    · exact R.refl m
    · exact h

namespace Keeps

variable {R S : Change}

/-- A step that keeps within a change keeps within every wider one. -/
theorem mono {x : Eval α} (h : ∀ m m', R.Holds m m' → S.Holds m m') (hx : Keeps R x) : Keeps S x :=
  fun m => h _ _ (hx m)

protected theorem pure (a : α) : Keeps R (pure a : Eval α) := fun m => R.refl m

protected theorem throw (halt : Halt) : Keeps R (throw halt : Eval α) := fun m => R.refl m

/-- It is enough to look at the machine that is put in place of the old one. -/
protected theorem modifyGet {f : Machine → α × Machine} (h : ∀ m, R.Holds m (f m).2) :
    Keeps R (modifyGet f : Eval α) := fun m => h m

protected theorem modify {f : Machine → Machine} (h : ∀ m, R.Holds m (f m)) :
    Keeps R (modify f : Eval Unit) := fun m => h m

protected theorem get : Keeps R (get : Eval Machine) := fun m => R.refl m

/-- Two steps that keep within a change, one after the other. -/
protected theorem bind {x : Eval α} {f : α → Eval β} (hx : Keeps R x) (hf : ∀ a, Keeps R (f a)) :
    Keeps R (x >>= f) :=
  fun m => R.holds_bind (hx m) fun a m' _ => hf a m'

end Keeps

/-! ## Operators and built-in functions -/

/-- The same end, in another machine. -/
def onState (f : Machine → Machine) :
    EStateM.Result Halt Machine α → EStateM.Result Halt Machine α
  | .ok a m => .ok a (f m)
  | .error halt m => .error halt (f m)

/-- The machine with other scopes. -/
def Machine.withScopes (scopes : Array Scope) (m : Machine) : Machine := { m with scopes }

/-- A step neither looks at the scopes nor changes them. -/
def Oblivious (x : Eval α) : Prop :=
  ∀ m scopes, x (m.withScopes scopes) = onState (Machine.withScopes scopes) (x m)

/-- The scopes stay as they are. -/
def sameScopes : Change where
  Holds m m' := m'.scopes = m.scopes
  refl _ := rfl
  trans h₁ h₂ := h₂.trans h₁

namespace Oblivious

/-- A step that works with any scopes leaves those that are there. -/
theorem keeps {x : Eval α} (hx : Oblivious x) : Keeps sameScopes x := by
  intro m
  have hsame : x m = onState (Machine.withScopes m.scopes) (x m) := hx m m.scopes
  show (x.after m).scopes = m.scopes
  unfold Eval.after
  cases hm : x m with
  | ok a s =>
    rw [hm] at hsame
    injection hsame with _ hs
    show s.scopes = m.scopes
    rw [hs]
    rfl
  | error halt s =>
    rw [hm] at hsame
    injection hsame with _ hs
    show s.scopes = m.scopes
    rw [hs]
    rfl

protected theorem pure (a : α) : Oblivious (pure a : Eval α) := fun _ _ => rfl

protected theorem throw (halt : Halt) : Oblivious (throw halt : Eval α) := fun _ _ => rfl

/-- Two steps that do not look at the scopes, one after the other. -/
protected theorem bind {x : Eval α} {f : α → Eval β} (hx : Oblivious x)
    (hf : ∀ a, Oblivious (f a)) : Oblivious (x >>= f) := by
  intro m scopes
  show EStateM.bind x f (m.withScopes scopes) = onState _ (EStateM.bind x f m)
  unfold EStateM.bind
  rw [hx m scopes]
  cases x m with
  | ok a s => exact hf a s scopes
  | error halt s => rfl

/-- To look at the rest of the machine is not to look at the scopes. -/
theorem bind_get {f : Machine → Eval α} (hf : ∀ m, Oblivious (f m))
    (hsame : ∀ m scopes, f (m.withScopes scopes) = f m) : Oblivious (get >>= f) := by
  intro m scopes
  show f (m.withScopes scopes) (m.withScopes scopes) = onState _ (f m m)
  rw [hsame]
  exact hf m m scopes

/-- Identities come from a counter of their own. -/
theorem identity : Oblivious Eval.identity := fun _ _ => rfl

theorem array (elements : List Value) : Oblivious (Eval.array elements) :=
  identity.bind fun _ => .pure _

theorem dict (pairs : Pairs) : Oblivious (Eval.dict pairs) :=
  identity.bind fun _ => .pure _

/-- A NaN takes an identity, another number does not. -/
theorem float (x : Binary64) : Oblivious (Eval.float x) := by
  unfold Eval.float
  split
  · exact identity.bind fun _ => .pure _
  · exact .pure _

theorem number (n : Number) : Oblivious (Eval.number n) := by
  cases n with
  | int n => exact .pure _
  | float x => exact float x

/-- Arithmetic that has no result halts, and leaves everything as it is. -/
theorem arithmetic (result : Except Number.Fault α) : Oblivious (Eval.arithmetic result) := by
  cases result with
  | ok a => exact .pure _
  | error fault => exact .throw _

/-- So does the writing of what has no text. -/
theorem written (result : Except Unprintable α) : Oblivious (Eval.written result) := by
  cases result with
  | ok a => exact .pure _
  | error reason => exact .throw _

theorem write (piece : Piece) : Oblivious (Eval.write piece) := fun _ _ => rfl

/-- An event is taken from the input, which is not in the scopes. -/
theorem receive : Oblivious Eval.receive := by
  refine bind_get (fun m => ?_) fun _ _ => rfl
  split
  · exact .throw _
  · next event rest _ =>
    have hrest : Oblivious (modify fun m => { m with input := rest } : Eval PUnit) := fun _ _ => rfl
    exact hrest.bind fun _ => .pure event

/-- Reading a line writes a prompt and takes an event. -/
theorem readLine (prompt : String) : Oblivious (Eval.readLine prompt) := by
  refine (write _).bind fun _ => receive.bind fun event => ?_
  cases event with
  | line text => exact .pure text
  | interrupt => exact .throw _

theorem applyPrefix (operator : String) (v : Value) :
    Oblivious (applyPrefix operator v) := by
  unfold Monkey.applyPrefix
  split
  · exact .pure _
  · split
    · exact number _
    · exact .pure _
  · exact .pure _

/-- An operator between numbers computes a number or compares them. -/
theorem applyNumeric (operator : String) (left right : Value) (a b : Number) :
    Oblivious (applyNumeric operator left right a b) := by
  unfold Monkey.applyNumeric
  split <;> first | exact .pure _ | exact (arithmetic _).bind fun _ => number _

theorem applyInfix (operator : String) (left right : Value) :
    Oblivious (applyInfix operator left right) := by
  unfold Monkey.applyInfix
  split
  · exact applyNumeric _ _ _ _ _
  · split <;> exact .pure _

/-- An index is looked up in the value that is indexed, not in the scopes. -/
theorem applyIndex (left index : Value) : Oblivious (applyIndex left index) := by
  unfold Monkey.applyIndex
  split
  · exact .pure _
  · unfold entryAt
    split
    · exact .pure _
    · exact (written _).bind fun _ => .pure _
  · exact .pure _

/-- A pair is put into a dictionary, if its key can be written. -/
theorem insertPair (hash : HashKey) (pair : Value × Value) (pairs : Pairs) :
    Oblivious (insertPair hash pair pairs) :=
  (written _).bind fun _ => .pure _

/-- Values are written one after the other, up to one that has no text. -/
theorem writeLines (vs : List Value) : Oblivious (Builtin.writeLines vs) := by
  induction vs with
  | nil => exact .pure _
  | cons v vs ih => exact (written _).bind fun _ => (write _).bind fun _ => ih

/-- Elements are added up one after the other, up to one that is no number. -/
theorem sumFrom (vs : List Value) : ∀ sum, Oblivious (Builtin.sumFrom sum vs) := by
  induction vs with
  | nil => exact fun _ => number _
  | cons v vs ih =>
    intro sum
    unfold Builtin.sumFrom
    split
    · exact (arithmetic _).bind fun _ => ih _
    · exact .pure _

/-- Each row becomes an array with an identity of its own. -/
theorem mapM_array (rows : List (List Value)) : Oblivious (rows.mapM Eval.array) := by
  induction rows with
  | nil => exact .pure _
  | cons row rows ih =>
    rw [List.mapM_cons]
    exact (array row).bind fun _ => ih.bind fun _ => .pure _

/-- The rows of `zip` are new arrays, and so is the array of them. -/
theorem zipped (vs : List Value) : Oblivious (Builtin.zipped vs) := by
  unfold Builtin.zipped
  split
  · exact .pure _
  · exact array _
  · exact (mapM_array _).bind fun _ => array _

/-- `gets` reads a line, unless its prompt is no string. -/
theorem readString (vs : List Value) : Oblivious (Builtin.readString vs) := by
  unfold Builtin.readString
  split
  · exact (readLine _).bind fun _ => .pure _
  · exact (readLine _).bind fun _ => .pure _
  · exact .pure _

theorem toInteger (v : Value) : Oblivious (Builtin.toInteger v) := by
  unfold Builtin.toInteger
  split <;> first | exact .pure _ | exact .throw _

/-- `float` computes a binary number, or halts if the integer is too large. -/
theorem toBinary (v : Value) : Oblivious (Builtin.toBinary v) := by
  unfold Builtin.toBinary
  split
  · split
    · exact float _
    · exact .pure _
  · exact (arithmetic _).bind fun _ => float _
  · exact .pure _

theorem absolute (v : Value) : Oblivious (Builtin.absolute v) := by
  unfold Builtin.absolute
  split
  · exact number _
  · exact .pure _

/-- `rest` makes a new array, unless there is nothing left of it. -/
theorem restOf (v : Value) : Oblivious (Builtin.restOf v) := by
  unfold Builtin.restOf
  split
  · exact .pure _
  · exact array _
  · exact .pure _

/-- `push` makes a new array. -/
theorem pushed (element v : Value) : Oblivious (Builtin.pushed element v) := by
  unfold Builtin.pushed
  split
  · exact array _
  · exact .pure _

theorem sumOf (v : Value) : Oblivious (Builtin.sumOf v) := by
  unfold Builtin.sumOf
  split
  · exact sumFrom _ _
  · exact .pure _

/-- **A built-in function leaves the scopes alone.** -/
theorem call (b : Builtin) (vs : List Value) : Oblivious (b.call vs) := by
  unfold Builtin.call
  split
  · unfold Builtin.apply
    split
    case h_1 => exact .throw _
    case h_2 => exact (writeLines _).bind fun _ => .pure _
    case h_3 => exact readString _
    case h_6 => exact zipped _
    case h_7 => exact pushed _ _
    case h_10 => exact toInteger _
    case h_11 => exact toBinary _
    case h_12 => exact (written _).bind fun _ => .pure _
    case h_13 => exact absolute _
    case h_16 => exact restOf _
    case h_17 => exact sumOf _
    all_goals exact .pure _
  · exact .pure _

end Oblivious

end Monkey
