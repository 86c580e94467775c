import Monkey.Proofs.Change
import Monkey.Proofs.Route

/-!
# What values contain

A value holds other values: the elements of an array, the keys and values of a dictionary, the value
in a return wrapper. `Value.Every p` says that `p` holds of a value and of all that it contains, at
any depth.

For a `p` that concerns functions, return wrappers and errors only, the operators and the built-in
functions give nothing that contains other values of these kinds than their operands do: an index
takes a value out of a container, and `rest`, `push` and `zip` put together what they were given
(`Yields.call`). That holds of all results but errors.
-/

namespace Monkey

namespace Value

/-- The values that a value holds directly. -/
def parts : Value → List Value
  | array _ elements => elements
  | dict _ pairs => pairs.flatMap fun pair => [pair.1, pair.2]
  | returned _ v => [v]
  | _ => []

/-- A value contains itself and what the values that it holds contain. -/
inductive Contains : Value → Value → Prop where
  | self : Contains v v
  | part (mem : u ∈ v.parts) (inside : Contains u w) : Contains v w

/-- `p` holds of a value and of all that it contains. -/
def Every (p : Value → Prop) (v : Value) : Prop := ∀ w, v.Contains w → p w

/-- A value that is neither a function nor a return wrapper nor an error. -/
def isPlain : Value → Bool
  | function .. | returned .. | error _ => false
  | _ => true

/-- An error, or else a value of which `q` holds. -/
def OrError (q : Value → Prop) (v : Value) : Prop := v.isError ∨ q v

variable {p : Value → Prop} {v : Value}

/-- A property of all that a value contains is one of the value and of all that its parts contain.
-/
theorem every_iff : v.Every p ↔ p v ∧ ∀ u ∈ v.parts, u.Every p := by
  constructor
  · intro h
    exact ⟨h v .self, fun u hu w hw => h w (.part hu hw)⟩
  · rintro ⟨hv, hparts⟩ w hw
    cases hw with
    | self => exact hv
    | part hu inside => exact hparts _ hu _ inside

/-- The parts of a dictionary are its keys and its values. -/
theorem mem_parts_dict {i : Nat} {pairs : Pairs} {u : Value} :
    u ∈ (dict i pairs).parts ↔ ∃ pair ∈ pairs, u = pair.1 ∨ u = pair.2 := by
  simp [parts]

end Value

/-- `q` holds of both sides of all pairs. -/
def Pairs.Both (q : Value → Prop) (pairs : Pairs) : Prop := ∀ pair ∈ pairs, q pair.1 ∧ q pair.2

/-- Whatever a step gives satisfies `post`. -/
def Yields (post : α → Prop) (x : Eval α) : Prop := ∀ m a m', x m = .ok a m' → post a

namespace Yields

variable {post : α → Prop}

protected theorem pure {a : α} (h : post a) : Yields post (pure a : Eval α) := by
  intro m a' m' hpure
  cases hpure
  exact h

protected theorem throw (halt : Halt) : Yields post (throw halt : Eval α) := by
  intro m a m' hthrow
  cases hthrow

/-- What the first step yields is known to the second one. -/
protected theorem bind {pre : β → Prop} {x : Eval β} {f : β → Eval α} (hx : Yields pre x)
    (hf : ∀ b, pre b → Yields post (f b)) : Yields post (x >>= f) := by
  intro m a m' h
  obtain ⟨b, m₁, hb, ha⟩ := Eval.bind_eq_ok h
  exact hf b (hx m b m₁ hb) m₁ a m' ha

/-- What comes before matters not, if what follows satisfies `post` in any case. -/
theorem behind {x : Eval β} {f : β → Eval α} (hf : ∀ b, Yields post (f b)) :
    Yields post (x >>= f) := by
  have hx : Yields (fun _ => True) x := fun _ _ _ _ => trivial
  exact hx.bind fun b _ => hf b

/-- A step that yields no error yields no worse than one that may. -/
theorem orError {q : Value → Prop} {x : Eval Value} (h : Yields q x) :
    Yields (Value.OrError q) x :=
  fun m v m' hv => .inr (h m v m' hv)

end Yields

/-- A pair that replaces another one, or is added, leaves the other pairs as they are. -/
theorem Yields.insertPair (hash : HashKey) {q : Value → Prop}
    {pair : Value × Value} {pairs : Pairs}
    (hpair : q pair.1 ∧ q pair.2) (hpairs : pairs.Both q) :
    Yields (Pairs.Both q) (insertPair hash pair pairs) := by
  refine behind fun hash => .pure ?_
  induction pairs with
  | nil => exact List.forall_mem_singleton.mpr hpair
  | cons first rest ih =>
    obtain ⟨hfirst, hrest⟩ := List.forall_mem_cons.mp hpairs
    rw [Pairs.insert]
    split
    · exact List.forall_mem_cons.mpr ⟨hpair, hrest⟩
    · exact List.forall_mem_cons.mpr ⟨hfirst, ih hrest⟩

/-- The rows of a table are what the arrays hold. -/
theorem Builtin.mem_rows {q : Value → Prop} {vs : List Value} {table : List (List Value)}
    (hvs : ∀ v ∈ vs, ∀ u ∈ v.parts, q u) (h : rows vs = .ok table) :
    ∀ row ∈ table, ∀ u ∈ row, q u := by
  fun_induction rows vs generalizing table with
  | case1 =>
    cases h
    exact fun row hrow => by cases hrow
  | case2 | case4 => cases h
  | case3 i elements vs _ ih =>
    obtain ⟨helements, hmore⟩ := List.forall_mem_cons.mp hvs
    cases hrest : rows vs with
    | error e =>
      rw [hrest] at h
      cases h
    | ok rest =>
      rw [hrest] at h
      cases h
      exact List.forall_mem_cons.mpr ⟨helements, ih hmore hrest⟩

/-- The first elements of lists are elements of them. -/
theorem Builtin.mem_heads {others : List (List Value)} {heads : List Value}
    (h : others.mapM List.head? = some heads) : ∀ u ∈ heads, ∃ other ∈ others, u ∈ other := by
  induction others generalizing heads with
  | nil =>
    cases h
    exact fun u hu => by cases hu
  | cons other others ih =>
    rw [List.mapM_cons] at h
    obtain ⟨v, hv, h⟩ := Option.bind_eq_some_iff.mp h
    obtain ⟨vs, hvs, h⟩ := Option.bind_eq_some_iff.mp h
    cases h
    refine List.forall_mem_cons.mpr ⟨⟨other, List.mem_cons_self, List.mem_of_head? hv⟩, ?_⟩
    intro u hu
    obtain ⟨row, hrow, hmem⟩ := ih hvs u hu
    exact ⟨row, List.mem_cons_of_mem _ hrow, hmem⟩

/-- A column is taken from the rows. -/
theorem Builtin.mem_columns {q : Value → Prop} {row : List Value} {others : List (List Value)}
    (hrow : ∀ u ∈ row, q u) (hothers : ∀ other ∈ others, ∀ u ∈ other, q u) :
    ∀ column ∈ columns row others, ∀ u ∈ column, q u := by
  fun_induction columns row others with
  | case1 | case2 => exact fun column hcolumn => by cases hcolumn
  | case3 v row others heads hheads ih =>
    obtain ⟨hv, hrow⟩ := List.forall_mem_cons.mp hrow
    refine List.forall_mem_cons.mpr ⟨List.forall_mem_cons.mpr ⟨hv, ?_⟩, ih hrow ?_⟩
    · intro u hu
      obtain ⟨other, hother, hmem⟩ := mem_heads hheads u hu
      exact hothers other hother u hmem
    · intro tail htail u hu
      obtain ⟨other, hother, rfl⟩ := List.mem_map.mp htail
      exact hothers other hother u (List.mem_of_mem_tail hu)

/-! ## Operators -/

section

variable {p : Value → Prop} (hplain : ∀ v : Value, v.isPlain → p v)
include hplain

open Value

/-- A plain value has the property, so only its parts have to be looked at. -/
theorem Value.every_of_isPlain {v : Value} (hv : v.isPlain) (hparts : ∀ u ∈ v.parts, u.Every p) :
    v.Every p :=
  every_iff.mpr ⟨hplain v hv, hparts⟩

/-- A plain value that holds no other value. -/
theorem Value.every_of_parts_eq_nil {v : Value} (hv : v.isPlain) (hparts : v.parts = []) :
    v.Every p :=
  every_of_isPlain hplain hv fun u hu => by rw [hparts] at hu; cases hu

/-- A dictionary contains what its keys and values contain. -/
theorem Value.every_dict {i : Nat} {pairs : Pairs} (h : pairs.Both (Every p)) :
    (dict i pairs).Every p := by
  refine every_of_isPlain hplain rfl fun u hu => ?_
  obtain ⟨pair, hpair, rfl | rfl⟩ := mem_parts_dict.mp hu
  · exact (h pair hpair).1
  · exact (h pair hpair).2

namespace Yields

theorem float (x : Binary64) : Yields (Every p) (Eval.float x) := by
  unfold Eval.float
  split
  · exact behind fun i => .pure (every_of_parts_eq_nil hplain rfl rfl)
  · exact .pure (every_of_parts_eq_nil hplain rfl rfl)

theorem number (n : Number) : Yields (Every p) (Eval.number n) := by
  cases n with
  | int n => exact .pure (every_of_parts_eq_nil hplain rfl rfl)
  | float x => exact float hplain x

/-- A new array contains what its elements contain. -/
theorem array {elements : List Value} (h : ∀ v ∈ elements, v.Every p) :
    Yields (Every p) (Eval.array elements) :=
  behind fun _ => .pure (every_of_isPlain hplain rfl h)

/-- A new dictionary contains what its pairs contain. -/
theorem dict {pairs : Pairs} (h : pairs.Both (Every p)) : Yields (Every p) (Eval.dict pairs) :=
  behind fun _ => .pure (every_dict hplain h)

theorem applyPrefix (operator : String) (v : Value) :
    Yields (OrError (Every p)) (applyPrefix operator v) := by
  unfold Monkey.applyPrefix
  split
  · exact .pure (.inr (every_of_parts_eq_nil hplain rfl rfl))
  · split
    · exact (number hplain _).orError
    · exact .pure (.inl rfl)
  · exact .pure (.inl rfl)

/-- What numbers are computed to is a number, a truth value or an error. -/
theorem applyNumeric (operator : String) (left right : Value) (a b : Number) :
    Yields (OrError (Every p)) (applyNumeric operator left right a b) := by
  unfold Monkey.applyNumeric
  split
  case h_10 => exact .pure (.inl rfl)
  case h_1 | h_2 | h_3 | h_4 | h_5 =>
    exact behind fun n => (number hplain n).orError
  all_goals exact .pure (.inr (every_of_parts_eq_nil hplain rfl rfl))

theorem applyInfix (operator : String) (left right : Value) :
    Yields (OrError (Every p)) (applyInfix operator left right) := by
  have hlogical (a b : Bool) : OrError (Every p) (applyLogical operator a b) := by
    unfold applyLogical
    split
    · exact .inr (every_of_parts_eq_nil hplain rfl rfl)
    · exact .inr (every_of_parts_eq_nil hplain rfl rfl)
    · exact .inl rfl
  have htextual (a b : String) : OrError (Every p) (applyTextual operator a b) := by
    unfold applyTextual
    split
    case h_4 => exact .inl rfl
    all_goals exact .inr (every_of_parts_eq_nil hplain rfl rfl)
  have hidentity : OrError (Every p) (applyIdentity operator left right) := by
    unfold applyIdentity
    split
    · exact .inr (every_of_parts_eq_nil hplain rfl rfl)
    · exact .inr (every_of_parts_eq_nil hplain rfl rfl)
    · split <;> exact .inl rfl
  unfold Monkey.applyInfix
  split
  · exact applyNumeric hplain operator left right _ _
  · split
    · exact .pure (hlogical _ _)
    · exact .pure (htextual _ _)
    · exact .pure hidentity

/-- An index takes a value out of a container. -/
theorem applyIndex {left : Value} (index : Value) (hleft : ∀ u ∈ left.parts, u.Every p) :
    Yields (OrError (Every p)) (applyIndex left index) := by
  have hnull : (Value.null).Every p := every_of_parts_eq_nil hplain rfl rfl
  unfold Monkey.applyIndex
  split
  · next i elements n =>
    refine .pure (.inr ?_)
    unfold elementAt
    split
    · exact hnull
    · cases helement : elements[n.toNat]? with
      | none => exact hnull
      | some v => exact hleft v (List.mem_of_getElem? helement)
  · next i pairs =>
    unfold entryAt
    split
    · exact .pure (.inl rfl)
    · refine behind fun hash => .pure (.inr ?_)
      unfold Pairs.find?
      cases hpair : List.find? (Pairs.filedUnder hash) pairs with
      | none => exact hnull
      | some pair =>
        exact hleft pair.2 (mem_parts_dict.mpr ⟨pair, List.mem_of_find?_eq_some hpair, .inr rfl⟩)
  · exact .pure (.inl rfl)

/-! ## Built-in functions -/

theorem readString (vs : List Value) : Yields (OrError (Every p)) (Builtin.readString vs) := by
  unfold Builtin.readString
  split
  · exact behind fun s => .pure (.inr (every_of_parts_eq_nil hplain rfl rfl))
  · exact behind fun s => .pure (.inr (every_of_parts_eq_nil hplain rfl rfl))
  · exact .pure (.inl rfl)

theorem toInteger (v : Value) : Yields (OrError (Every p)) (Builtin.toInteger v) := by
  unfold Builtin.toInteger
  split
  · next s =>
    refine .pure ?_
    cases Numeral.readInt? s with
    | none => exact .inl rfl
    | some n => exact .inr (every_of_parts_eq_nil hplain rfl rfl)
  · exact .pure (.inl rfl)
  · exact .throw _
  · exact .pure (.inr (every_of_parts_eq_nil hplain rfl rfl))
  · exact .pure (.inl rfl)

theorem toBinary (v : Value) : Yields (OrError (Every p)) (Builtin.toBinary v) := by
  unfold Builtin.toBinary
  split
  · split
    · exact (float hplain _).orError
    · exact .pure (.inl rfl)
  · exact behind fun x => (float hplain x).orError
  · exact .pure (.inl rfl)

theorem absolute (v : Value) : Yields (OrError (Every p)) (Builtin.absolute v) := by
  unfold Builtin.absolute
  split
  · exact (number hplain _).orError
  · exact .pure (.inl rfl)

theorem sumFrom (vs : List Value) :
    ∀ sum, Yields (OrError (Every p)) (Builtin.sumFrom sum vs) := by
  induction vs with
  | nil => exact fun sum => (number hplain sum).orError
  | cons v vs ih =>
    intro sum
    unfold Builtin.sumFrom
    split
    · exact behind fun n => ih n
    · exact .pure (.inl rfl)

theorem sumOf (v : Value) : Yields (OrError (Every p)) (Builtin.sumOf v) := by
  unfold Builtin.sumOf
  split
  · exact sumFrom hplain _ _
  · exact .pure (.inl rfl)

/-- The rest of an array has no elements but those of the array. -/
theorem restOf {v : Value} (hv : v.Every p) : Yields (OrError (Every p)) (Builtin.restOf v) := by
  have hparts := (every_iff.mp hv).2
  unfold Builtin.restOf
  split
  · exact .pure (.inr (every_of_parts_eq_nil hplain rfl rfl))
  · exact (array hplain fun u hu => hparts u (List.mem_cons_of_mem _ hu)).orError
  · exact .pure (.inl rfl)

/-- The new element stands beside those of the array. -/
theorem pushed {v element : Value} (hv : v.Every p) (helement : element.Every p) :
    Yields (OrError (Every p)) (Builtin.pushed element v) := by
  have hparts := (every_iff.mp hv).2
  unfold Builtin.pushed
  split
  · refine (array hplain fun u hu => ?_).orError
    rcases List.mem_append.mp hu with hu | hu
    · exact hparts u hu
    · exact List.mem_singleton.mp hu ▸ helement
  · exact .pure (.inl rfl)

/-- The rows of a matrix become arrays, each with its own identity. -/
theorem mapM_array {rows : List (List Value)} (h : ∀ row ∈ rows, ∀ v ∈ row, v.Every p) :
    Yields (fun vs => ∀ v ∈ vs, v.Every p) (rows.mapM Eval.array) := by
  induction rows with
  | nil => exact .pure fun v hv => by cases hv
  | cons row rows ih =>
    obtain ⟨hrow, hmore⟩ := List.forall_mem_cons.mp h
    rw [List.mapM_cons]
    exact (array hplain hrow).bind fun v hv => (ih hmore).bind fun vs hvs =>
      .pure (List.forall_mem_cons.mpr ⟨hv, hvs⟩)

/-- Zipped arrays have no elements but those of the arguments, in new arrays. -/
theorem zipped {vs : List Value} (hvs : ∀ v ∈ vs, v.Every p) :
    Yields (OrError (Every p)) (Builtin.zipped vs) := by
  unfold Builtin.zipped
  split
  · exact .pure (.inl rfl)
  · exact (array hplain fun v hv => by cases hv).orError
  · next row more hrows =>
    obtain ⟨hrow, hmore⟩ := List.forall_mem_cons.mp
      (Builtin.mem_rows (fun v hv => (every_iff.mp (hvs v hv)).2) hrows)
    exact ((mapM_array hplain (Builtin.mem_columns hrow hmore)).bind fun us hus =>
      array hplain hus).orError

/-- A length is a number. -/
theorem lengthOf (v : Value) : OrError (Every p) (Builtin.lengthOf v) := by
  unfold Builtin.lengthOf
  split
  · exact .inr (every_of_parts_eq_nil hplain rfl rfl)
  · exact .inr (every_of_parts_eq_nil hplain rfl rfl)
  · exact .inl rfl

theorem describe (v : Value) : OrError (Every p) (Builtin.describe v) := by
  unfold Builtin.describe
  split
  · exact .inr (every_of_parts_eq_nil hplain rfl rfl)
  · exact .inl rfl

/-- The first element is one of the elements, or there is none and it is `null`. -/
theorem firstOf {v : Value} (hv : v.Every p) : OrError (Every p) (Builtin.firstOf v) := by
  unfold Builtin.firstOf
  split
  · next i elements =>
    cases hfirst : elements.head? with
    | none => exact .inr (every_of_parts_eq_nil hplain rfl rfl)
    | some u => exact .inr ((every_iff.mp hv).2 u (List.mem_of_head? hfirst))
  · exact .inl rfl

theorem lastOf {v : Value} (hv : v.Every p) : OrError (Every p) (Builtin.lastOf v) := by
  unfold Builtin.lastOf
  split
  · next i elements =>
    cases hlast : elements.getLast? with
    | none => exact .inr (every_of_parts_eq_nil hplain rfl rfl)
    | some u => exact .inr ((every_iff.mp hv).2 u (List.mem_of_getLast? hlast))
  · exact .inl rfl

/-- **A built-in function gives an error or nothing new.** -/
theorem call (b : Builtin) {vs : List Value} (hvs : ∀ v ∈ vs, v.Every p) :
    Yields (OrError (Every p)) (b.call vs) := by
  have hatom {v : Value} (hv : v.isPlain) (hparts : v.parts = []) :
      Yields (OrError (Every p)) (pure v) := .pure (.inr (every_of_parts_eq_nil hplain hv hparts))
  unfold Builtin.call
  split
  · unfold Builtin.apply
    split
    case h_1 => exact .throw _
    case h_2 => exact behind fun _ => hatom rfl rfl
    case h_3 => exact readString hplain _
    case h_5 => exact .pure (describe hplain _)
    case h_6 => exact zipped hplain hvs
    case h_7 => exact pushed hplain (hvs _ (by simp)) (hvs _ (by simp))
    case h_8 => exact .pure (lengthOf hplain _)
    case h_10 => exact toInteger hplain _
    case h_11 => exact toBinary hplain _
    case h_12 => exact behind fun _ => hatom rfl rfl
    case h_13 => exact absolute hplain _
    case h_14 => exact .pure (firstOf hplain (hvs _ (by simp)))
    case h_15 => exact .pure (lastOf hplain (hvs _ (by simp)))
    case h_16 => exact restOf hplain (hvs _ (by simp))
    case h_17 => exact sumOf hplain _
    all_goals exact hatom rfl rfl
  · exact .pure (.inl rfl)

end Yields

end

end Monkey
