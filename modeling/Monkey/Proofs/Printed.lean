import Monkey.Proofs.Inspected

/-!
# Printed expressions

The text of an expression that is made of names, integers, truth values, operators, calls, arrays,
indices and dictionaries is read as that expression again, with all its tokens (`parse_printed`).

The printer puts parentheses around operators and indices only. So a call stands where it is printed,
next to whatever is around it, and its reading is stated with all that may still extend it.
-/

namespace Monkey

open Text

/-- Expressions with a text, built to any depth, that keep the tokens they are read from. -/
inductive Printable : Node → Prop where
  | identifier (nonempty : s.toList ≠ []) (letters : s.toList.all isNameChar)
      (noKeyword : TokenKind.ofWord s = .ident) : Printable (.identifier ⟨⟨.ident, s⟩, s⟩)
  | integer (nonempty : s.toList ≠ []) (digits : s.toList.all isDigit)
      (value : Numeral.readInt? s = some n) : Printable (.integer ⟨.int, s⟩ n)
  | trueWord : Printable (.boolean ⟨.trueWord, "true"⟩ true)
  | falseWord : Printable (.boolean ⟨.falseWord, "false"⟩ false)
  | prefixOp {kind : TokenKind} (operator : kind.isPrefixOperator) (right : Printable e) :
      Printable (.prefixOp kind.sign kind.mark e)
  | infixOp {kind : TokenKind} (operator : kind.isInfixOperator) (left : Printable e₁)
      (right : Printable e₂) : Printable (.infixOp kind.sign kind.mark e₁ e₂)
  | call (callee : Printable f) (arguments : ∀ e ∈ es, Printable e) :
      Printable (.call TokenKind.lparen.sign f es)
  | array (elements : ∀ e ∈ es, Printable e) : Printable (.array TokenKind.lbracket.sign es)
  | index (left : Printable e) (position : Printable i) :
      Printable (.index TokenKind.lbracket.sign e i)
  | dictionary (keys : ∀ pair ∈ ps, Printable pair.1) (values : ∀ pair ∈ ps, Printable pair.2) :
      Printable (.dictionary TokenKind.lbrace.sign ps)

/-! ## Scripts of expressions -/

/-- The text is that of the tree, and it is read as the tree. -/
structure Script.Prints (s : Script) : Prop where
  text : s.tree.text = .ok s.text
  spells : Spells s.text.toList s.tokens
  reads : ReadsExtended s.tokens s.tree

namespace Script

/-- The script of an operator in front of its operand. -/
def prefixOp (kind : TokenKind) (right : Script) : Script where
  text := "(" ++ kind.mark ++ right.text ++ ")"
  tokens := TokenKind.lparen.sign :: kind.sign :: right.tokens ++ [TokenKind.rparen.sign]
  tree := .prefixOp kind.sign kind.mark right.tree

/-- The script of an operator between its operands. -/
def infixOp (kind : TokenKind) (left right : Script) : Script where
  text := "(" ++ left.text ++ " " ++ kind.mark ++ " " ++ right.text ++ ")"
  tokens := TokenKind.lparen.sign :: left.tokens ++ kind.sign :: right.tokens ++
    [TokenKind.rparen.sign]
  tree := .infixOp kind.sign kind.mark left.tree right.tree

/-- The script of a call. -/
def call (callee : Script) (arguments : List Script) : Script where
  text := callee.text ++ "(" ++ ", ".intercalate (arguments.map Script.text) ++ ")"
  tokens := callee.tokens ++ TokenKind.lparen.sign :: withCommas (arguments.map Script.tokens) ++
    [TokenKind.rparen.sign]
  tree := .call TokenKind.lparen.sign callee.tree (arguments.map Script.tree)

/-- The script of an index. -/
def index (left position : Script) : Script where
  text := "(" ++ left.text ++ "[" ++ position.text ++ "])"
  tokens := TokenKind.lparen.sign :: (left.tokens ++ TokenKind.lbracket.sign :: position.tokens ++
    [TokenKind.rbracket.sign]) ++ [TokenKind.rparen.sign]
  tree := .index TokenKind.lbracket.sign left.tree position.tree

/-- The script of a dictionary, which is printed without blanks behind the colons. -/
def dictionary (pairs : List (Script × Script)) : Script where
  text := "\x7b" ++ ", ".intercalate (pairs.map fun s => s.1.text ++ ":" ++ s.2.text) ++ "\x7d"
  tokens := (dict pairs).tokens
  tree := (dict pairs).tree

namespace Prints

variable {s s' : Script} {scripts : List Script} {pairs : List (Script × Script)} {kind : TokenKind}

/-- At the end of the input the expression is read to its end. -/
theorem whole (h : s.Prints) : Reads (.expression .lowest s.tree) s.tokens [] := by
  have hreads := h.reads .lowest [] s.tree [] (by unfold Binds; decide) TokenKind.noConfusion
    (.unextended (Nat.not_lt_zero _))
  rw [List.append_nil] at hreads
  exact hreads

/-- The text of an expression begins, and not with an equality sign. -/
theorem begins (h : s.Prints) : ∃ c cs, s.text.toList = c :: cs ∧ c ≠ '=' := by
  have hbegins := h.whole.begins
  rw [← tokenize_of_spells h.spells] at hbegins
  change (nextKind (tokensOf s.text.toList)).beginsExpression at hbegins
  cases htext : s.text.toList with
  | nil =>
    rw [htext, tokensOf_nil] at hbegins
    exact absurd hbegins (by decide)
  | cons c cs =>
    rw [htext] at hbegins
    refine ⟨c, cs, rfl, ?_⟩
    rintro rfl
    exact not_beginsExpression_tokensOf cs hbegins

/-- The text of an operation has parentheses of its own. -/
theorem prefixOp (hkind : kind.isPrefixOperator) (h : s.Prints) : (Script.prefixOp kind s).Prints where
  text := by
    rw [Script.prefixOp, Node.text, h.text]
    rfl
  spells := by
    have hoperand : Spells (kind.mark.toList ++ s.text.toList) (kind.sign :: s.tokens) := by
      rcases TokenKind.isPrefixOperator_iff.mp hkind with rfl | rfl
      · obtain ⟨c, cs, htext, hc⟩ := h.begins
        have hspells := h.spells
        rw [htext] at hspells ⊢
        exact hspells.bang hc
      · exact h.spells.sign (by decide)
    simpa [Script.prefixOp] using hoperand.parenthesized
  reads := h.reads.prefixOp hkind

/-- The operands are read back in the context of the operator, and the parentheses close it. -/
theorem infixOp (hkind : kind.isInfixOperator) (h : s.Prints) (h' : s'.Prints) :
    (Script.infixOp kind s s').Prints where
  text := by
    rw [Script.infixOp, Node.text, h.text, h'.text]
    rfl
  spells := by
    have hright : Spells (' ' :: s'.text.toList) s'.tokens := h'.spells.blank (by decide)
    have hoperator : Spells (' ' :: (kind.mark.toList ++ ' ' :: s'.text.toList)) _ :=
      (hright.operator hkind).blank (by decide)
    have hspells := (h.spells.append hoperator (by decide)).parenthesized
    simpa [Script.infixOp] using hspells
  reads := h.reads.infixOp hkind h'.reads

theorem index (h : s.Prints) (h' : s'.Prints) : (Script.index s s').Prints where
  text := by
    rw [Script.index, Node.text, h.text, h'.text]
    rfl
  spells := by
    have hspells := (h.spells.append h'.spells.bracketed (by decide)).parenthesized
    simpa [Script.index] using hspells
  reads := h.reads.index rfl h'.reads.alone

/-- The parts are printed one after the other. -/
theorem texts_eq (h : ∀ s ∈ scripts, s.Prints) :
    Node.texts (scripts.map Script.tree) = .ok (scripts.map Script.text) := by
  induction scripts with
  | nil => rfl
  | cons s scripts ih =>
    obtain ⟨hs, hscripts⟩ := List.forall_mem_cons.mp h
    rw [List.map_cons, Node.texts, hs.text, ih hscripts]
    rfl

theorem array (h : ∀ s ∈ scripts, s.Prints) : (Script.array scripts).Prints where
  text := by
    rw [Script.array, Node.text, texts_eq h]
    rfl
  spells := spells_array fun s hs => (h s hs).spells
  reads := .of_first fun rest _ => reads_array (fun s hs => (h s hs).reads.alone) rest

/-- The callee is an expression that can be extended, and the arguments stand alone. -/
theorem call (hcallee : s.Prints) (h : ∀ s ∈ scripts, s.Prints) :
    (Script.call s scripts).Prints where
  text := by
    rw [Script.call, Node.text, hcallee.text, texts_eq h]
    rfl
  spells := by
    have harguments := (spells_commas fun s hs => (h s hs).spells).parenthesized
    simpa [Script.call] using hcallee.spells.append harguments (by decide)
  reads := hcallee.reads.call rfl fun rest =>
    reads_commas rfl TokenKind.noConfusion (fun s hs => (h s hs).reads.alone) rest

theorem pairTexts_eq (h : ∀ s ∈ pairs, s.1.Prints ∧ s.2.Prints) :
    Node.pairTexts (pairs.map fun s => (s.1.tree, s.2.tree)) =
      .ok (pairs.map fun s => s.1.text ++ ":" ++ s.2.text) := by
  induction pairs with
  | nil => rfl
  | cons s pairs ih =>
    obtain ⟨⟨hkey, hvalue⟩, hpairs⟩ := List.forall_mem_cons.mp h
    rw [List.map_cons, Node.pairTexts, hkey.text, hvalue.text, ih hpairs]
    rfl

/-- Keys and values stand alone between the colons and the commas. -/
theorem dictionary (h : ∀ s ∈ pairs, s.1.Prints ∧ s.2.Prints) :
    (Script.dictionary pairs).Prints where
  text := by
    rw [Script.dictionary, dict, Node.text, pairTexts_eq h]
    rfl
  spells := by
    have hpieces : ∀ piece ∈ pairs.map fun s => (s.1.text.toList ++ ':' :: s.2.text.toList,
        s.1.tokens ++ TokenKind.colon.sign :: s.2.tokens), Spells piece.1 piece.2 := by
      intro piece hpiece
      obtain ⟨s, hs, rfl⟩ := List.mem_map.mp hpiece
      obtain ⟨hkey, hvalue⟩ := h s hs
      exact hkey.spells.append (hvalue.spells.sign (by decide)) (by decide)
    have hspells := (Spells.commas hpieces).braced
    simpa [Script.dictionary, dict, Function.comp_def] using hspells
  reads := .of_first fun rest _ =>
    reads_dict (fun s hs => ⟨(h s hs).1.reads.alone, (h s hs).2.reads.alone⟩) rest

end Prints

end Script

/-! ## All expressions -/

/-- What is found for each element of a list makes a list. -/
theorem exists_map_eq {f : α → β} {p : α → Prop} {bs : List β} (h : ∀ b ∈ bs, ∃ a, f a = b ∧ p a) :
    ∃ as : List α, as.map f = bs ∧ ∀ a ∈ as, p a := by
  obtain ⟨parts, rfl, hparts⟩ := exists_parts h
  refine ⟨parts.map Prod.fst, ?_, List.forall_mem_map.mpr fun part hpart => (hparts part hpart).2⟩
  rw [List.map_map]
  exact List.map_congr_left fun part hpart => (hparts part hpart).1

/-- By induction on the expression. -/
theorem Printable.exists_prints {e : Node} (h : Printable e) :
    ∃ s : Script, s.tree = e ∧ s.Prints := by
  induction h with
  | @identifier s nonempty letters noKeyword =>
    have hspells := Spells.wordText nonempty letters
    rw [noKeyword] at hspells
    exact ⟨⟨s, [⟨.ident, s⟩], _⟩, rfl, rfl, hspells, .of_first fun rest _ => .identifier rfl⟩
  | @integer s n nonempty digits value =>
    exact ⟨⟨s, [⟨.int, s⟩], _⟩, rfl, rfl, .digitsText nonempty digits,
      .of_first fun rest hdot => .integer rfl value hdot⟩
  | trueWord =>
    exact ⟨⟨"true", [⟨.trueWord, "true"⟩], _⟩, rfl, rfl, .wordText (by decide) (by decide),
      .of_first fun rest _ => .boolean rfl⟩
  | falseWord =>
    exact ⟨⟨"false", [⟨.falseWord, "false"⟩], _⟩, rfl, rfl, .wordText (by decide) (by decide),
      .of_first fun rest _ => .boolean rfl⟩
  | prefixOp operator _ ih =>
    obtain ⟨s, rfl, hs⟩ := ih
    exact ⟨.prefixOp _ s, rfl, hs.prefixOp operator⟩
  | infixOp operator _ _ ihleft ihright =>
    obtain ⟨s, rfl, hs⟩ := ihleft
    obtain ⟨s', rfl, hs'⟩ := ihright
    exact ⟨.infixOp _ s s', rfl, hs.infixOp operator hs'⟩
  | call _ _ ihcallee iharguments =>
    obtain ⟨s, rfl, hs⟩ := ihcallee
    obtain ⟨scripts, rfl, hscripts⟩ := exists_map_eq iharguments
    exact ⟨.call s scripts, rfl, .call hs hscripts⟩
  | array _ ih =>
    obtain ⟨scripts, rfl, hscripts⟩ := exists_map_eq ih
    exact ⟨.array scripts, rfl, .array hscripts⟩
  | index _ _ ihleft ihposition =>
    obtain ⟨s, rfl, hs⟩ := ihleft
    obtain ⟨s', rfl, hs'⟩ := ihposition
    exact ⟨.index s s', rfl, hs.index hs'⟩
  | @dictionary ps _ _ ihkeys ihvalues =>
    have hpairs : ∀ pair ∈ ps, ∃ s : Script × Script,
        (s.1.tree, s.2.tree) = pair ∧ s.1.Prints ∧ s.2.Prints := by
      intro pair hpair
      obtain ⟨key, hkeytree, hkey⟩ := ihkeys pair hpair
      obtain ⟨value, hvaluetree, hvalue⟩ := ihvalues pair hpair
      exact ⟨(key, value), by rw [hkeytree, hvaluetree], hkey, hvalue⟩
    obtain ⟨pairs, rfl, hprints⟩ := exists_map_eq hpairs
    exact ⟨.dictionary pairs, rfl, .dictionary hprints⟩

/-- **The text of an expression is read as the expression.** There are no errors, and the program is
one statement with the expression in it, all tokens included. -/
theorem parse_printed {e : Node} (h : Printable e) :
    ∃ text, e.text = .ok text ∧
      parse text = ⟨[.statement ((tokenize text).headD .eof) e], []⟩ := by
  obtain ⟨s, rfl, hs⟩ := h.exists_prints
  refine ⟨s.text, hs.text, ?_⟩
  rw [tokenize_of_spells hs.spells]
  exact parse_of_spells hs.spells hs.whole

/-- The expression `f(x, (-12))({a:[true, (xs[(!b)])], (007 != _):[]})`. -/
def sampleExpression : Node :=
  let name (text : String) : Node := .identifier ⟨⟨.ident, text⟩, text⟩
  .call TokenKind.lparen.sign
    (.call TokenKind.lparen.sign (name "f")
      [name "x", .prefixOp TokenKind.minus.sign "-" (.integer ⟨.int, "12"⟩ 12)])
    [.dictionary TokenKind.lbrace.sign
      [(name "a", .array TokenKind.lbracket.sign
        [.boolean ⟨.trueWord, "true"⟩ true,
         .index TokenKind.lbracket.sign (name "xs") (.prefixOp TokenKind.bang.sign "!" (name "b"))]),
       (.infixOp TokenKind.notEq.sign "!=" (.integer ⟨.int, "007"⟩ 7) (name "_"),
        .array TokenKind.lbracket.sign [])]]

theorem printable_sampleExpression : Printable sampleExpression := by
  have hinner : Printable (.call TokenKind.lparen.sign (.identifier ⟨⟨.ident, "f"⟩, "f"⟩)
      [.identifier ⟨⟨.ident, "x"⟩, "x"⟩,
       .prefixOp TokenKind.minus.sign "-" (.integer ⟨.int, "12"⟩ 12)]) := by
    refine .call (.identifier (by decide) (by decide) (by decide)) ?_
    refine List.forall_mem_cons.mpr ⟨.identifier (by decide) (by decide) (by decide),
      List.forall_mem_singleton.mpr (.prefixOp rfl ?_)⟩
    exact .integer (by decide) (by decide) (by decide +kernel)
  refine .call hinner (List.forall_mem_singleton.mpr (.dictionary ?keys ?values))
  case keys =>
    refine List.forall_mem_cons.mpr ⟨.identifier (by decide) (by decide) (by decide),
      List.forall_mem_singleton.mpr (.infixOp rfl ?_ ?_)⟩
    · exact .integer (by decide) (by decide) (by decide +kernel)
    · exact .identifier (by decide) (by decide) (by decide)
  case values =>
    refine List.forall_mem_cons.mpr ⟨.array ?_,
      List.forall_mem_singleton.mpr (.array (List.forall_mem_nil _))⟩
    refine List.forall_mem_cons.mpr ⟨.trueWord, List.forall_mem_singleton.mpr (.index ?_ ?_)⟩
    · exact .identifier (by decide) (by decide) (by decide)
    · exact .prefixOp rfl (.identifier (by decide) (by decide) (by decide))

theorem parse_printed_sampleExpression :
    let text := "f(x, (-12))(\x7ba:[true, (xs[(!b)])], (007 != _):[]\x7d)"
    Printable sampleExpression ∧ sampleExpression.text = .ok text ∧
      parse text = ⟨[.statement ((tokenize text).headD .eof) sampleExpression], []⟩ := by
  obtain ⟨text, htext, hparse⟩ := parse_printed printable_sampleExpression
  have hprinted : sampleExpression.text.toOption =
      some "f(x, (-12))(\x7ba:[true, (xs[(!b)])], (007 != _):[]\x7d)" := by
    decide +kernel
  rw [htext, Except.toOption, Option.some.injEq] at hprinted
  subst hprinted
  exact ⟨printable_sampleExpression, htext, hparse⟩

end Monkey
