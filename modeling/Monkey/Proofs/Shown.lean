import Monkey.Proofs.Written
import Monkey.Repl

/-!
# What has a text

A tree has a text exactly if every `if` in it has an `else`, and so has every part of it
(`Node.shows_text`). A function is shown with its body, so it has a text exactly if every `if` in its
body has an `else` (`shown_of_parse`).
-/

namespace Monkey

namespace Node

/-- Whether a node is no `if` without an `else`. -/
def hasElse : Node → Bool
  | ifThen .. => false
  | _ => true

/-- Whether a node is no function with an `if` without an `else` in its body. -/
def bodyHasElse : Node → Bool
  | function _ _ body => body.all hasElse
  | _ => true

end Node

/-! ## Texts of trees -/

/-- There is a text exactly if `P` holds; otherwise an `else` is missing. -/
structure Shows (P : Prop) (x : Except Unprintable α) : Prop where
  ok : P → ∃ a, x = .ok a
  error : ¬P → x = .error .missingElse

namespace Shows

variable {P Q : Prop} {x : Except Unprintable α}

theorem congr (h : Shows P x) (hiff : P ↔ Q) : Shows Q x :=
  ⟨fun hQ => h.ok (hiff.mpr hQ), fun hQ => h.error fun hP => hQ (hiff.mp hP)⟩

theorem pure (a : α) : Shows True (.ok a : Except Unprintable α) :=
  ⟨fun _ => ⟨a, rfl⟩, fun h => absurd trivial h⟩

/-- A text that is put together from two has both. -/
theorem bind {f : α → Except Unprintable β} (hx : Shows P x) (hf : ∀ a, Shows Q (f a)) :
    Shows (P ∧ Q) (x >>= f) := by
  by_cases hP : P
  · obtain ⟨a, rfl⟩ := hx.ok hP
    exact (hf a).congr ⟨fun hQ => ⟨hP, hQ⟩, And.right⟩
  · refine ⟨fun h => absurd h.1 hP, fun _ => ?_⟩
    rw [hx.error hP]
    rfl

/-- The last step of a text only puts its pieces together. -/
theorem map {f : α → β} (hx : Shows P x) : Shows P (do return f (← x)) :=
  (hx.bind fun a => .pure (f a)).congr (and_iff_left trivial)

end Shows

namespace Node

/-- A list has a text if each of its nodes has one. -/
theorem shows_texts {nodes : List Node} (h : ∀ node ∈ nodes, Shows (node.all hasElse) node.text) :
    Shows (∀ node ∈ nodes, node.all hasElse) (texts nodes) := by
  induction nodes with
  | nil => exact (Shows.pure []).congr (by simp)
  | cons node nodes ih =>
    obtain ⟨hnode, hnodes⟩ := List.forall_mem_cons.mp h
    rw [texts]
    exact (hnode.bind fun _ => (ih hnodes).map).congr (by rw [List.forall_mem_cons])

theorem shows_pairTexts {pairs : List (Node × Node)}
    (hkey : ∀ pair ∈ pairs, Shows (pair.1.all hasElse) pair.1.text)
    (hvalue : ∀ pair ∈ pairs, Shows (pair.2.all hasElse) pair.2.text) :
    Shows (∀ pair ∈ pairs, pair.1.all hasElse ∧ pair.2.all hasElse) (pairTexts pairs) := by
  induction pairs with
  | nil => exact (Shows.pure []).congr (by simp)
  | cons pair pairs ih =>
    obtain ⟨hk, hkeys⟩ := List.forall_mem_cons.mp hkey
    obtain ⟨hv, hvalues⟩ := List.forall_mem_cons.mp hvalue
    rw [pairTexts]
    refine (hk.bind fun _ => hv.bind fun _ => (ih hkeys hvalues).map).congr ?_
    rw [List.forall_mem_cons, and_assoc]

theorem all_hasElse_missing : missing.all hasElse :=
  all_iff.mpr ⟨rfl, List.forall_mem_nil _⟩

/-- What is missing is shown as nothing. -/
theorem shows_orEmpty {value : Node} (h : Shows (value.all hasElse) value.text) :
    Shows (value.all hasElse) (orEmpty value value.text) := by
  unfold orEmpty
  split
  · next hmissing =>
    cases value with
    | missing => exact (Shows.pure "").congr (iff_of_true trivial all_hasElse_missing)
    | _ => cases hmissing
  · exact h

/-- **A tree has a text exactly if every `if` in it has an `else`.** -/
theorem shows_text (node : Node) : Shows (node.all hasElse) node.text := by
  induction node using induction_parts with
  | h node ih =>
    have hall {P : Prop} (hsort : node.hasElse)
        (hparts : P ↔ ∀ part ∈ node.parts, part.all hasElse) : P ↔ node.all hasElse := by
      rw [all_iff, hparts]
      exact (and_iff_right hsort).symm
    cases node with
    | missing | identifier | integer | float | boolean | string =>
      exact (Shows.pure _).congr (hall rfl (by simp [parts]))
    | program statements | block _ statements =>
      rw [text]
      exact (shows_texts ih).map.congr (hall rfl Iff.rfl)
    | letBinding | constBinding | assignment | returning =>
      rw [text]
      exact (shows_orEmpty (ih _ List.mem_cons_self)).map.congr (hall rfl (by simp [parts]))
    | statement =>
      rw [text]
      exact (shows_orEmpty (ih _ List.mem_cons_self)).congr (hall rfl (by simp [parts]))
    | prefixOp | function =>
      rw [text]
      exact (ih _ List.mem_cons_self).map.congr (hall rfl (by simp [parts]))
    | loop | infixOp | index =>
      rw [text]
      refine ((ih _ List.mem_cons_self).bind fun _ => (ih _ (by simp [parts])).map).congr ?_
      exact hall rfl (by simp [parts])
    | ifThen =>
      rw [text]
      exact ⟨fun h => absurd (all_iff.mp h).1 Bool.false_ne_true, fun _ => rfl⟩
    | ifElse _ condition consequence alternative =>
      have halternative (head : String) : Shows (alternative.all hasElse)
          (if alternative.isMissing then Pure.pure head
            else do return head ++ "else " ++ (← text alternative)) := by
        split
        · next hmissing =>
          cases alternative with
          | missing => exact (Shows.pure head).congr (iff_of_true trivial all_hasElse_missing)
          | _ => cases hmissing
        · exact (ih _ (by simp [parts])).map
      rw [text]
      refine ((ih _ List.mem_cons_self).bind fun _ => (ih _ (by simp [parts])).bind fun _ =>
        halternative _).congr ?_
      exact hall rfl (by simp [parts])
    | call _ callee arguments =>
      rw [text]
      refine ((ih _ List.mem_cons_self).bind fun _ =>
        (shows_texts fun e he => ih e (List.mem_cons_of_mem _ he)).map).congr ?_
      exact hall rfl (by rw [parts, List.forall_mem_cons])
    | array =>
      rw [text]
      exact (shows_texts ih).map.congr (hall rfl Iff.rfl)
    | dictionary t pairs =>
      rw [text]
      refine (shows_pairTexts (fun pair hpair => ih _ (mem_parts_key t hpair))
        fun pair hpair => ih _ (mem_parts_value t hpair)).map.congr (hall rfl ?_)
      rw [parts, List.forall_mem_append, List.forall_mem_map, List.forall_mem_map, ← forall₂_and]

end Node

/-! ## Texts of functions -/

/-- A value has a text: `str` gives it, `puts` prints it, and so does the prompt if a line has that
value. -/
def Value.Shown (v : Value) : Prop :=
  ∃ text, v.inspect = .ok text ∧
    (∀ m, Builtin.str.call [v] m = .ok (.str text) m) ∧
    (∀ m, Builtin.puts.call [v] m = .ok .null { m with output := m.output.push (.line text) }) ∧
    ∀ line m m', line ≠ "" → (parse line).errors = [] →
      (parse line).tree.evaluate Machine.globalScope m = .ok (some v) m' →
      Repl.respond line m = .ok () { m' with output := m'.output.push (.line text) }

theorem Value.shown_of_inspect {v : Value} {text : String} (h : v.inspect = .ok text) : v.Shown := by
  have hwritten (m : Machine) : Eval.written v.inspect m = .ok text m := by
    rw [h]
    rfl
  refine ⟨text, h, fun m => ?_, fun m => ?_, fun line m m' hline hclean hvalue => ?_⟩
  · exact Eval.bind_ok _ (hwritten m)
  · have hlines : Builtin.writeLines [v] m =
        .ok () { m with output := m.output.push (.line text) } := by
      rw [Builtin.writeLines, Eval.bind_ok _ (hwritten m)]
      rfl
    exact Eval.bind_ok _ hlines
  · rw [Repl.respond, if_pos hline, if_neg (not_not.mpr hclean), Eval.bind_ok _ hvalue]
    exact Eval.bind_ok _ (hwritten m')

/-- A function is shown with its body. -/
theorem Value.shows_inspect (i : Nat) (parameters : List Name) (body : Node) (scope : Nat) :
    Shows (body.all Node.hasElse) (Value.function i parameters body scope).inspect := by
  rw [inspect, functionText]
  exact body.shows_text.map

/-- A function has its text if the whole program has no bare `if`. -/
theorem Node.all_bodyHasElse (node : Node) (h : node.all hasElse) : node.all bodyHasElse := by
  induction node using induction_parts with
  | h node ih =>
    have hparts := (all_iff.mp h).2
    refine all_iff.mpr ⟨?_, fun part hpart => ih part hpart (hparts part hpart)⟩
    cases node with
    | function _ _ body => exact hparts body List.mem_cons_self
    | _ => rfl

/-- The bodies of functions are those that are checked. -/
theorem Inherits.bodyHasElse : Inherits (·.all Node.bodyHasElse) (·.all Node.hasElse) where
  part h hpart := (Node.all_iff.mp h).2 _ hpart
  body h := (Node.all_iff.mp h).1
  called h := Node.all_bodyHasElse _ h

theorem Value.shown_of_written {v : Value} (h : v.Written (·.all Node.hasElse))
    (hv : v.kind = .function) : v.Shown := by
  cases v with
  | function i parameters body scope =>
    obtain ⟨text, htext⟩ := (shows_inspect i parameters body scope).ok h
    exact shown_of_inspect htext
  | _ => cases hv

/-- **What has a text.** A node of a tree has a text exactly if every `if` in it has an `else`, and a
function exactly if every `if` in its body has one; otherwise the missing `else` is what is reported.
So where every function in the programs has such a body, every function that is made can be shown. -/
theorem shown_of_parse (text : String) :
    (∀ node : Node, node.Within (parse text).tree → Shows (node.all Node.hasElse) node.text) ∧
    (∀ i parameters body scope,
      Shows (body.all Node.hasElse) (Value.function i parameters body scope).inspect) ∧
    ∀ {input : List Incoming} {depth d : Nat} {activity : Activity} {m m' : Machine}
      {around : List (Nat × Pending)}, (parse text).tree.all Node.bodyHasElse →
      Session (fun program => program.all Node.bodyHasElse) input m →
      Nested depth (.node (parse text).tree Machine.globalScope) m around d activity m' →
      m'.Stores (fun v => v.kind = .function → v.Shown) ∧
      ∀ v m'', activity.perform (evaluate d) m' = .ok (some v) m'' →
        v.Every fun w => w.kind = .function → w.Shown := by
  refine ⟨fun node _ => node.shows_text, Value.shows_inspect, ?_⟩
  intro input depth d activity m m' around htext hsession hnested
  obtain ⟨hm', -, hgives⟩ :=
    written_of_session .bodyHasElse (fun _ h => h) hsession htext hnested
  refine ⟨hm'.mono fun v => Value.shown_of_written, fun v m'' hv w hw hkind => ?_⟩
  rcases hgives v m'' hv with herror | hwritten
  · cases v with
    | error e =>
      cases hw with
      | self => cases hkind
      | part mem _ => cases mem
    | _ => cases herror
  · exact Value.shown_of_written (hwritten w hw) hkind

/-- A function with an `else`, and an `if` around it that has none. -/
def givesFunction : Parsed :=
  parse "let f = fn(x) { if (x) { 1 } else { 2 } }; if (true) { f }"

/-- The program has no text, but the function that it gives has one. -/
theorem shown_of_parse_givesFunction :
    givesFunction.errors = [] ∧ givesFunction.tree.text = .error .missingElse ∧
    givesFunction.tree.all Node.bodyHasElse ∧
    ∃ v m, evaluate 20 givesFunction.tree Machine.globalScope (.start []) = .ok (some v) m ∧
      v.kind = .function ∧ v.Shown := by
  obtain ⟨herrors, htext, hall, hvalue⟩ : givesFunction.errors = [] ∧
      givesFunction.tree.text = .error .missingElse ∧ givesFunction.tree.all Node.bodyHasElse ∧
      ((evaluate 20 givesFunction.tree Machine.globalScope).run' (.start [])).join.map Value.kind =
        some .function := by
    refine ⟨?_, ?_, ?_, ?_⟩
    all_goals cbv
  obtain ⟨v, hv, hkind⟩ := Option.map_eq_some_iff.mp hvalue
  cases hrun : evaluate 20 givesFunction.tree Machine.globalScope (.start []) with
  | error halt m => simp [EStateM.run', EStateM.run, hrun] at hv
  | ok v? m =>
    obtain rfl : v? = some v := by simpa [EStateM.run', EStateM.run, hrun] using hv
    have hself : Nested 20 (.node givesFunction.tree Machine.globalScope) (.start []) [] 20
        (.node givesFunction.tree Machine.globalScope) (.start []) := .self
    have hshown := ((shown_of_parse _).2.2 hall .start hself).2 v m hrun v .self hkind
    exact ⟨herrors, htext, hall, v, m, rfl, hkind, hshown⟩

/-- The program `if (true) { 1 }`. -/
def bareIf : Parsed := parse "if (true) { 1 }"

/-- The program `puts(fn(x) { if (x) { 1 } });`. -/
def printsBareIf : Parsed := parse "puts(fn(x) { if (x) { 1 } });"

/-- Both are read without an error, but the one has no text and the other one can not print the
function. -/
theorem not_shown_bareIf :
    bareIf.errors = [] ∧ bareIf.tree.text = .error .missingElse ∧
    printsBareIf.errors = [] ∧
    ∃ m, evaluate 20 printsBareIf.tree Machine.globalScope (.start []) =
      .error (.unprintable .missingElse) m := by
  refine ⟨?_, ?_, ?_, (evaluate 20 printsBareIf.tree Machine.globalScope).after (.start []), ?_⟩
  all_goals cbv

end Monkey
