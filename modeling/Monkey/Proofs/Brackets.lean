import Monkey.Proofs.Lexemes
import Monkey.Proofs.Parts
import Monkey.Proofs.Stops

/-!
# Brackets and quotes

In a text that is read without an error, brackets are closed in the order in which they are opened,
except that the end of the input may stand for the closing braces of blocks (`awaited_of_clean`). It
may stand for the closing quote of a string as well.
-/

namespace Monkey

open Text

/-! ## Open brackets -/

namespace TokenKind

/-- The bracket that closes an opening one. -/
def closer? : TokenKind → Option TokenKind
  | lparen => some rparen
  | lbracket => some rbracket
  | lbrace => some rbrace
  | _ => none

/-- The closing brackets. -/
def isCloser : TokenKind → Bool
  | rparen | rbracket | rbrace => true
  | _ => false

/-- The brackets. -/
def isBracket (kind : TokenKind) : Bool := kind.closer?.isSome || kind.isCloser

/-- The closing brackets that are awaited behind a token of this kind, the innermost first, where
those of `stack` are awaited before it. There is none if it closes another bracket than the innermost
open one. -/
def await (stack : List TokenKind) (kind : TokenKind) : Option (List TokenKind) :=
  match kind.closer? with
  | some closer => some (closer :: stack)
  | none =>
    if kind.isCloser then
      match stack with
      | [] => none
      | closer :: stack => if kind = closer then some stack else none
    else some stack

theorem await_plain {kind : TokenKind} (h : kind.isBracket = false) (stack : List TokenKind) :
    await stack kind = some stack := by
  cases kind <;> first | rfl | cases h

theorem await_opener {kind closer : TokenKind} (h : kind.closer? = some closer)
    (stack : List TokenKind) : await stack kind = some (closer :: stack) := by
  unfold await
  rw [h]

theorem await_closer {kind : TokenKind} (h : kind.isCloser) (stack : List TokenKind) :
    await (kind :: stack) kind = some stack := by
  cases kind <;> first | rfl | cases h

theorem isCloser_of_closer? {kind closer : TokenKind} (h : kind.closer? = some closer) :
    closer.isCloser := by
  cases kind <;> cases h <;> rfl

end TokenKind

open TokenKind

/-- The closing brackets that are awaited behind the tokens. -/
def awaited (stack : List TokenKind) (ts : List Token) : Option (List TokenKind) :=
  ts.foldlM (fun stack t => await stack t.kind) stack

theorem awaited_cons (stack : List TokenKind) (t : Token) (ts : List Token) :
    awaited stack (t :: ts) = (await stack t.kind).bind (awaited · ts) :=
  List.foldlM_cons

/-! ## Matching brackets -/

/-- The tokens `ts` end with `rest`, and the brackets between `ts` and `rest` match, but for a number of
blocks, not more than `blocks`, that only the end of the input closes. -/
def Matches (blocks : Nat) (ts rest : List Token) : Prop :=
  rest <:+ ts ∧ ∃ unclosed ≤ blocks, (rest ≠ [] → unclosed = 0) ∧
    ∀ stack, awaited stack ts = awaited (List.replicate unclosed .rbrace ++ stack) rest

namespace Matches

variable {t l r : Token} {ts us rest : List Token} {n n₁ n₂ : Nat}

/-- No token is taken. -/
theorem refl (ts : List Token) : Matches n ts ts :=
  ⟨List.suffix_rfl, 0, Nat.zero_le n, fun _ => rfl, fun _ => rfl⟩

theorem mono (h : Matches n ts rest) (hn : n ≤ n₁) : Matches n₁ ts rest := by
  obtain ⟨hsuffix, k, hk, hend, hts⟩ := h
  exact ⟨hsuffix, k, Nat.le_trans hk hn, hend, hts⟩

/-- A token that is no bracket. -/
theorem plain (ht : t.kind.isBracket = false) (h : Matches n ts rest) :
    Matches n (t :: ts) rest := by
  obtain ⟨hsuffix, k, hk, hend, hts⟩ := h
  refine ⟨hsuffix.trans (List.suffix_cons t ts), k, hk, hend, fun stack => ?_⟩
  rw [awaited_cons, await_plain ht]
  exact hts stack

/-- What stands between two brackets, and what stands behind them. -/
theorem enclosed (hl : l.kind.closer? = some r.kind) (h : Matches n₁ ts (r :: us))
    (hus : Matches n us rest) : Matches n (l :: ts) rest := by
  obtain ⟨hinner, k₁, -, hend₁, hts⟩ := h
  obtain rfl := hend₁ (List.cons_ne_nil _ _)
  obtain ⟨hsuffix, k, hk, hend, hus⟩ := hus
  refine ⟨?_, k, hk, hend, fun stack => ?_⟩
  · exact hsuffix.trans ((List.suffix_cons r us).trans (hinner.trans (List.suffix_cons l ts)))
  calc awaited stack (l :: ts)
      = awaited (r.kind :: stack) ts := by rw [awaited_cons, await_opener hl]; rfl
    _ = awaited (r.kind :: stack) (r :: us) := hts _
    _ = awaited stack us := by rw [awaited_cons, await_closer (isCloser_of_closer? hl)]; rfl
    _ = awaited (List.replicate k .rbrace ++ stack) rest := hus stack

/-- A block that the end of the input closes. -/
theorem unclosed (hl : l.kind = .lbrace) (h : Matches n ts []) : Matches (n + 1) (l :: ts) [] := by
  obtain ⟨-, k, hk, -, hts⟩ := h
  refine ⟨List.nil_suffix, k + 1, Nat.succ_le_succ hk, fun hne => absurd rfl hne, fun stack => ?_⟩
  calc awaited stack (l :: ts)
      = awaited (.rbrace :: stack) ts := by rw [awaited_cons, hl]; rfl
    _ = awaited (List.replicate k .rbrace ++ .rbrace :: stack) [] := hts _
    _ = awaited (List.replicate (k + 1) .rbrace ++ stack) [] := by
        rw [List.replicate_succ', List.append_assoc, List.singleton_append]

/-- One part and another one behind it: only if the other one is empty, blocks of the first one are
left open. -/
theorem trans (h : Matches n₁ ts us) (hus : Matches n₂ us rest) (hfirst : us = [] → n₁ ≤ n)
    (hsecond : n₂ ≤ n) : Matches n ts rest := by
  obtain ⟨hsuffix₁, k₁, hk₁, hend₁, hts⟩ := h
  obtain ⟨hsuffix₂, k₂, hk₂, hend₂, hus⟩ := hus
  by_cases hnil : us = []
  · subst hnil
    obtain rfl := List.suffix_nil.mp hsuffix₂
    exact ⟨hsuffix₁, k₁, Nat.le_trans hk₁ (hfirst rfl), fun hne => absurd rfl hne, hts⟩
  · obtain rfl := hend₁ hnil
    exact ⟨hsuffix₂.trans hsuffix₁, k₂, Nat.le_trans hk₂ hsecond, hend₂,
      fun stack => (hts stack).trans (hus stack)⟩

end Matches

/-! ## Blocks at the end of a tree -/

namespace Node

mutual

/-- The number of blocks, each inside the other, that end where the tree ends. Where a tree may end
with a bracket there is none, except in a block. -/
def blocksAtEnd : Node → Nat
  | program statements => blocksAtEndOfLast statements
  | block _ statements => blocksAtEndOfLast statements + 1
  | letBinding _ _ e | constBinding _ _ e | assignment _ _ e | returning _ e | statement _ e
  | prefixOp _ _ e | infixOp _ _ _ e => blocksAtEnd e
  | loop _ _ body | ifThen _ _ body | ifElse _ _ _ body | function _ _ body => blocksAtEnd body
  | _ => 0

/-- The number of blocks at the end of the last tree. -/
def blocksAtEndOfLast : List Node → Nat
  | [] => 0
  | [node] => blocksAtEnd node
  | _ :: nodes => blocksAtEndOfLast nodes

end

theorem blocksAtEndOfLast_le (node : Node) (nodes : List Node) :
    blocksAtEndOfLast nodes ≤ blocksAtEndOfLast (node :: nodes) := by
  cases nodes with
  | nil => simp [blocksAtEndOfLast]
  | cons => simp [blocksAtEndOfLast]

theorem blocksAtEnd_le_last {node : Node} {nodes : List Node} (hnil : nodes = []) :
    node.blocksAtEnd ≤ blocksAtEndOfLast (node :: nodes) := by
  subst hnil
  exact Nat.le_of_eq (by rw [blocksAtEndOfLast])

/-- Whether a node is no function with a bracket for a parameter. -/
def plainParameters : Node → Bool
  | function _ parameters _ => parameters.all fun name => !name.token.kind.isBracket
  | _ => true

end Node

namespace Part

/-- The number of blocks at the end of a part. -/
def blocksAtEnd : Part → Nat
  | expression _ e | first e | link _ e | extension _ _ e | block e | statement e => e.blocksAtEnd
  | expressions es | moreExpressions es | statements es => Node.blocksAtEndOfLast es
  | pairs ps => Node.blocksAtEndOfLast (ps.map Prod.snd)
  | parameters _ | moreParameters _ | ending => 0

/-- No function in a part has a bracket for a parameter. -/
def Plain : Part → Prop
  | expression _ e | first e | link _ e | extension _ _ e | block e | statement e =>
    e.all Node.plainParameters
  | expressions es | moreExpressions es | statements es => ∀ e ∈ es, e.all Node.plainParameters
  | pairs ps => ∀ pair ∈ ps, pair.1.all Node.plainParameters ∧ pair.2.all Node.plainParameters
  | parameters names | moreParameters names => ∀ name ∈ names, ¬name.token.kind.isBracket
  | ending => True

/-- **The brackets of a part match**, up to the blocks at its end, where each sign is spelled as it is
and no bracket is a parameter. -/
def IsMatched (part : Part) (ts rest : List Token) : Prop :=
  (∀ t ∈ ts, t.Spelled) → part.Plain → Matches part.blocksAtEnd ts rest

end Part

/-- Where no bracket passes a check, what passes it is no bracket. -/
theorem TokenKind.isBracket_eq_false {p : TokenKind → Bool} {kind : TokenKind}
    (hp : [lparen, rparen, lbracket, rbracket, lbrace, rbrace].all (!p ·)) (h : p kind) :
    kind.isBracket = false := by
  refine Bool.eq_false_iff.mpr fun hbracket => ?_
  have hmem : kind ∈ [lparen, rparen, lbracket, rbracket, lbrace, rbrace] := by
    cases kind <;> first | decide | cases hbracket
  simpa [h] using List.all_eq_true.mp hp kind hmem

theorem TokenKind.mark_of_isBracket {kind : TokenKind} (h : kind.isBracket) :
    kind.isSign ∧ ∃ c ∈ Numeral.delimiters, c ∈ kind.mark.toList := by
  cases kind
  case lparen => exact ⟨rfl, '(', by decide, by simp [mark]⟩
  case rparen => exact ⟨rfl, ')', by decide, by simp [mark]⟩
  case lbracket => exact ⟨rfl, '[', by decide, by simp [mark]⟩
  case rbracket => exact ⟨rfl, ']', by decide, by simp [mark]⟩
  case lbrace => exact ⟨rfl, '\x7b', by decide, by simp [mark]⟩
  case rbrace => exact ⟨rfl, '\x7d', by decide, by simp [mark]⟩
  all_goals cases h

/-- Any token may stand behind a point, but no bracket makes a fraction. -/
theorem isBracket_of_fraction {t : Token} (ht : t.Spelled) {whole : Int} {x : Binary64}
    (h : fractionValue? whole t.literal = some x) : t.kind.isBracket = false := by
  refine Bool.eq_false_iff.mpr fun hbracket => ?_
  obtain ⟨hsign, c, hc, hmark⟩ := TokenKind.mark_of_isBracket hbracket
  rw [ht hsign, fractionValue?_eq_none hc hmark] at h
  cases h

/-! ## Parts made of parts -/

namespace Part.IsMatched

variable {part inner first second : Part} {t l r : Token} {ts us rest : List Token}

/-- A part that takes no token. -/
theorem empty : part.IsMatched ts ts := fun _ _ => .refl ts

/-- A part that ends with another one. -/
theorem ending (h : inner.IsMatched ts rest) (hplain : part.Plain → inner.Plain)
    (hblocks : inner.blocksAtEnd ≤ part.blocksAtEnd) : part.IsMatched ts rest :=
  fun hspelled hpart => (h hspelled (hplain hpart)).mono hblocks

/-- A token that is no bracket, in front of the rest of a part. -/
theorem plain (ht : t.kind.isBracket = false) (h : part.IsMatched ts rest) :
    part.IsMatched (t :: ts) rest :=
  fun hspelled hpart => (h (List.forall_mem_cons.mp hspelled).2 hpart).plain ht

/-- The token behind the point of a number. -/
theorem fraction {whole : Int} {x : Binary64} (value : fractionValue? whole t.literal = some x) :
    part.IsMatched (t :: rest) rest :=
  fun hspelled _ => .plain (isBracket_of_fraction (hspelled t List.mem_cons_self) value) (.refl rest)

/-- A parameter and those behind it: it is no bracket because the part is plain. -/
theorem parameter (h : inner.IsMatched ts rest)
    (hplain : part.Plain → ¬t.kind.isBracket ∧ inner.Plain)
    (hblocks : inner.blocksAtEnd ≤ part.blocksAtEnd) : part.IsMatched (t :: ts) rest := by
  intro hspelled hpart
  have hmatches := h (List.forall_mem_cons.mp hspelled).2 (hplain hpart).2
  exact (hmatches.plain (Bool.eq_false_iff.mpr (hplain hpart).1)).mono hblocks

/-- One part and another one behind it. -/
theorem trans (h : first.IsMatched ts us) (hus : second.IsMatched us rest)
    (hplain : part.Plain → first.Plain ∧ second.Plain)
    (hfirst : us = [] → first.blocksAtEnd ≤ part.blocksAtEnd)
    (hsecond : second.blocksAtEnd ≤ part.blocksAtEnd) : part.IsMatched ts rest := by
  intro hspelled hpart
  have hmatches := h hspelled (hplain hpart).1
  have hbehind : ∀ t ∈ us, t.Spelled := fun t ht => hspelled t (hmatches.1.mem ht)
  exact hmatches.trans (hus hbehind (hplain hpart).2) hfirst hsecond

/-- A part, a token that is no bracket, and the rest of a part. -/
theorem separated (h : inner.IsMatched ts (t :: us)) (hplain : part.Plain → inner.Plain)
    (ht : t.kind.isBracket = false) (hus : part.IsMatched us rest) : part.IsMatched ts rest :=
  h.trans (hus.plain ht) (fun hpart => ⟨hplain hpart, hpart⟩) (fun hnil => nomatch hnil)
    (Nat.le_refl _)

/-- A part between brackets, and the rest of a part behind them. -/
theorem enclosed (hl : l.kind.closer? = some r.kind) (h : inner.IsMatched ts (r :: us))
    (hplain : part.Plain → inner.Plain) (hus : part.IsMatched us rest) :
    part.IsMatched (l :: ts) rest := by
  intro hspelled hpart
  have hinner := h (List.forall_mem_cons.mp hspelled).2 (hplain hpart)
  have hbehind : ∀ t ∈ us, t.Spelled := fun t ht =>
    hspelled t (List.mem_cons_of_mem _ (hinner.1.mem (List.mem_cons_of_mem _ ht)))
  exact .enclosed hl hinner (hus hbehind hpart)

/-- A word, a part in parentheses, and what they govern. -/
theorem headed (hword : t.kind.isBracket = false) (opening : l.kind = .lparen)
    (h : inner.IsMatched ts (r :: us)) (closing : r.kind = .rparen)
    (hplain : part.Plain → inner.Plain) (hus : part.IsMatched us rest) :
    part.IsMatched (t :: l :: ts) rest :=
  .plain hword (.enclosed (by rw [opening, closing]; rfl) h hplain hus)

/-- A block that the end of the input closes. -/
theorem unclosed (hl : l.kind = .lbrace) (h : inner.IsMatched ts [])
    (hplain : part.Plain → inner.Plain) (hblocks : inner.blocksAtEnd + 1 ≤ part.blocksAtEnd) :
    part.IsMatched (l :: ts) [] :=
  fun hspelled hpart =>
    (Matches.unclosed hl (h (List.forall_mem_cons.mp hspelled).2 (hplain hpart))).mono hblocks

end Part.IsMatched

/-! ## Parts of plain trees -/

namespace Node

variable {node e : Node}

theorem plain_parts (h : node.all plainParameters) : ∀ e ∈ node.parts, e.all plainParameters :=
  (all_iff.mp h).2

theorem plain_of_mem (hmem : e ∈ node.parts) (h : node.all plainParameters) :
    e.all plainParameters :=
  plain_parts h e hmem

theorem plain_pairs {token : Token} {pairs : List (Node × Node)}
    (h : (dictionary token pairs).all plainParameters) :
    ∀ pair ∈ pairs, pair.1.all plainParameters ∧ pair.2.all plainParameters :=
  fun _ hpair => ⟨plain_parts h _ (mem_parts_key _ hpair), plain_parts h _ (mem_parts_value _ hpair)⟩

theorem plain_names {token : Token} {names : List Name} {body : Node}
    (h : (function token names body).all plainParameters) :
    ∀ name ∈ names, ¬name.token.kind.isBracket := by
  intro name hname
  simpa using List.all_eq_true.mp (all_iff.mp h).1 name hname

end Node

/-! ## What is read is matched -/

namespace Reads

variable {part : Part} {ts us rest : List Token}

/-- What is found in an expression is found in what it extends. -/
theorem all_left (h : Reads part ts rest) (p : Node → Bool) :
    match part with
    | .link left e | .extension _ left e => e.all p → left.all p
    | _ => True := by
  induction h with
  | infixOp | call | index => exact fun h => (Node.all_iff.mp h).2 _ List.mem_cons_self
  | unextended => exact id
  | extended _ _ _ ihlink ihmore => exact fun h => ihlink (ihmore h)
  | _ => trivial

theorem eq_of_extension_nil {context : Precedence} {e e' : Node}
    (h : Reads (.extension context e e') ts rest) (hnil : ts = []) : e = e' := by
  subst hnil
  cases h with
  | unextended => rfl
  | extended _ link => exact absurd link.length_le (by simp [Part.weight])

theorem eq_nil_of_moreExpressions_nil {es : List Node} (h : Reads (.moreExpressions es) ts rest)
    (hnil : ts = []) : es = [] := by
  subst hnil
  cases h
  rfl

theorem eq_nil_of_statements_nil {ss : List Node} (h : Reads (.statements ss) ts rest)
    (hnil : ts = []) : ss = [] := by
  subst hnil
  cases h with
  | noStatements => rfl
  | oneStatement first => exact absurd first.length_le (by simp [Part.weight])

/-- An expression, and those that follow it. -/
theorem listed {e : Node} {es : List Node} (h : (Part.expression .lowest e).IsMatched ts us)
    (more : Reads (.moreExpressions es) us rest)
    (hmore : (Part.moreExpressions es).IsMatched us rest) :
    (Part.expressions (e :: es)).IsMatched ts rest := by
  refine h.trans hmore List.forall_mem_cons.mp (fun hnil => ?_) (Node.blocksAtEndOfLast_le e es)
  exact Node.blocksAtEnd_le_last (more.eq_nil_of_moreExpressions_nil hnil)

/-- A statement, and those that follow it. -/
theorem sequenced {s : Node} {ss : List Node} (h : (Part.statement s).IsMatched ts us)
    (more : Reads (.statements ss) us rest) (hmore : (Part.statements ss).IsMatched us rest) :
    (Part.statements (s :: ss)).IsMatched ts rest := by
  refine h.trans hmore List.forall_mem_cons.mp (fun hnil => ?_) (Node.blocksAtEndOfLast_le s ss)
  exact Node.blocksAtEnd_le_last (more.eq_nil_of_statements_nil hnil)

/-- A statement ends behind the expression in it. -/
theorem terminated {s e : Node} (h : (Part.expression .lowest e).IsMatched ts us)
    (hend : Part.ending.IsMatched us rest) (hmem : e ∈ s.parts)
    (hblocks : e.blocksAtEnd ≤ s.blocksAtEnd) : (Part.statement s).IsMatched ts rest :=
  h.trans hend (fun hs => ⟨Node.plain_of_mem hmem hs, trivial⟩) (fun _ => hblocks) (Nat.zero_le _)

/-- **The brackets of what is read match.** -/
theorem matched (h : Reads part ts rest) : part.IsMatched ts rest := by
  induction h with
  -- Literals and names
  | identifier kind | string kind | semicolon kind => exact .plain (by rw [kind]; rfl) .empty
  | integer kind => exact .plain (by rw [kind]; rfl) .empty
  | boolean kind => exact .plain (TokenKind.isBracket_eq_false (by decide) kind) .empty
  | float kind _ dot value =>
    exact .plain (by rw [kind]; rfl) (.plain (by rw [dot]; rfl) (.fraction value))
  | floatAtEnd kind _ dot => exact .plain (by rw [kind]; rfl) (.plain (by rw [dot]; rfl) .empty)
  -- What stands between brackets
  | group opening _ closing ih => exact .enclosed (by rw [opening, closing]; rfl) ih id .empty
  | array opening _ closing ih | block opening _ closing ih =>
    exact .enclosed (by rw [opening, closing]; rfl) ih Node.plain_parts .empty
  | dictionary opening _ closing ih =>
    exact .enclosed (by rw [opening, closing]; rfl) ih Node.plain_pairs .empty
  | call opening _ closing ih =>
    exact .enclosed (by rw [opening, closing]; rfl) ih
      (fun h => (List.forall_mem_cons.mp (Node.plain_parts h)).2) .empty
  | index opening _ closing ih =>
    exact .enclosed (by rw [opening, closing]; rfl) ih (Node.plain_of_mem (by simp [Node.parts]))
      .empty
  | blockAtEnd opening _ ih => exact .unclosed opening ih Node.plain_parts (Nat.le_refl _)
  -- What a word and a part in parentheses govern
  | ifThen word opening _ closing _ _ ihc ihb | loop word opening _ closing _ ihc ihb =>
    exact .headed (by rw [word]; rfl) opening ihc closing (Node.plain_of_mem List.mem_cons_self)
      (ihb.ending (Node.plain_of_mem (by simp [Node.parts])) (Nat.le_refl _))
  | ifElse word opening _ closing _ otherwise _ ihc ihb₁ ihb₂ =>
    exact .headed (by rw [word]; rfl) opening ihc closing (Node.plain_of_mem List.mem_cons_self)
      (ihb₁.separated (Node.plain_of_mem (by simp [Node.parts])) (by rw [otherwise]; rfl)
        (ihb₂.ending (Node.plain_of_mem (by simp [Node.parts])) (Nat.le_refl _)))
  | function word opening _ closing _ ihps ihb =>
    exact .headed (by rw [word]; rfl) opening ihps closing Node.plain_names
      (ihb.ending (Node.plain_of_mem List.mem_cons_self) (Nat.le_refl _))
  -- Operators, and what extends an expression
  | prefixOp operator _ ih | infixOp operator _ ih =>
    exact .plain (TokenKind.isBracket_eq_false (by decide) operator)
      (ih.ending (Node.plain_of_mem (by simp [Node.parts])) (Nat.le_refl _))
  | extended _ _ more ihfirst ihmore | expression _ more ihfirst ihmore =>
    exact ihfirst.trans ihmore (fun h => ⟨more.all_left _ h, h⟩)
      (fun hnil => Nat.le_of_eq (congrArg Node.blocksAtEnd (more.eq_of_extension_nil hnil)))
      (Nat.le_refl _)
  -- Lists
  | unextended | noMoreExpressions | noExpressions | noMoreParameters | noParameters | noPairs
  | noEnding | noStatements => exact .empty
  | oneMoreExpression comma _ more ihfirst ihmore =>
    exact .plain (by rw [comma]; rfl) (listed ihfirst more ihmore)
  | someExpressions _ more ihfirst ihmore => exact listed ihfirst more ihmore
  | oneStatement _ more ihfirst ihmore => exact sequenced ihfirst more ihmore
  | oneMoreParameter comma _ ih =>
    exact .plain (by rw [comma]; rfl) (.parameter ih List.forall_mem_cons.mp (Nat.le_refl _))
  | someParameters _ _ ih => exact .parameter ih List.forall_mem_cons.mp (Nat.le_refl _)
  | lastPair _ colon _ ihk ihv =>
    exact ihk.separated (fun h => (h _ List.mem_cons_self).1) (by rw [colon]; rfl)
      (ihv.ending (fun h => (h _ List.mem_cons_self).2) (Nat.le_refl _))
  | onePair _ colon _ comma _ ihk ihv ihmore =>
    exact ihk.separated (fun h => (List.forall_mem_cons.mp h).1.1) (by rw [colon]; rfl)
      (ihv.separated (fun h => (List.forall_mem_cons.mp h).1.2) (by rw [comma]; rfl)
        (ihmore.ending (fun h => (List.forall_mem_cons.mp h).2) (Node.blocksAtEndOfLast_le _ _)))
  -- Statements
  | letBinding word name sign _ _ ihv ihend | constBinding word name sign _ _ ihv ihend =>
    exact .plain (by rw [word]; rfl) (.plain (by rw [name]; rfl) (.plain (by rw [sign]; rfl)
      (terminated ihv ihend List.mem_cons_self (Nat.le_refl _))))
  | assignment name sign _ _ ihv ihend =>
    exact .plain (by rw [name]; rfl) (.plain (by rw [sign]; rfl)
      (terminated ihv ihend List.mem_cons_self (Nat.le_refl _)))
  | returning word _ _ ihv ihend =>
    exact .plain (by rw [word]; rfl) (terminated ihv ihend List.mem_cons_self (Nat.le_refl _))
  | statement _ _ _ ihv ihend => exact terminated ihv ihend List.mem_cons_self (Nat.le_refl _)

end Reads

/-! ## Texts without an error -/

/-- **Only blocks and a last string may be cut off.** In a text that is read without an error, every
bracket is closed in proper order, except that blocks at the end of the tree may lack their closing
braces. Every string is closed, except that the text may end inside the last token.

A parameter may be any token, so that none of them is a bracket has to be asked for. -/
theorem awaited_of_clean {text : String} (hnull : '\x00' ∉ text.toList)
    (hclean : (parse text).errors = []) (hplain : (parse text).tree.all Node.plainParameters) :
    (∃ unclosed ≤ (parse text).tree.blocksAtEnd,
      awaited [] (tokenize text) = some (List.replicate unclosed .rbrace)) ∧
    ∃ gap lexemes, text.toList = gap ++ Lexeme.join lexemes ∧ (∀ c ∈ gap, isBlank c) ∧
      lexemes.map Lexeme.token = tokenize text ∧
      ∀ before l later, lexemes = before ++ l :: later → (∀ c ∈ l.gap, isBlank c) ∧
        (l.text = l.token.written ∨ l.token.kind = .string ∧
          l.text = '"' :: l.token.literal.toList ∧ l.gap = [] ∧ later = []) := by
  constructor
  · have hreads := reads_parseTokens (unbroken_tokenize hnull) hclean
    have hstatements : Part.Plain (.statements (parse text).statements) :=
      (Node.all_iff.mp hplain).2
    obtain ⟨-, unclosed, hle, -, hawaited⟩ :=
      hreads.matched (fun _ => spelled_of_mem_tokenize) hstatements
    refine ⟨unclosed, hle, ?_⟩
    rw [hawaited, List.append_nil]
    rfl
  · obtain ⟨gap, lexemes, htext, hgap, htokens, hprecedes⟩ := (scans_tokensOf hnull).exists_lexemes
    refine ⟨gap, lexemes, htext, hgap, htokens, fun before l later h => ?_⟩
    exact ⟨(hprecedes before l later h).gap, (hprecedes before l later h).text⟩

-- In `fn(() { 1 }` the second parenthesis is a parameter.
example : (parse "fn(() \x7b 1 \x7d").errors = [] ∧
    awaited [] (tokenize "fn(() \x7b 1 \x7d") = some [.rparen] := by
  refine ⟨?_, ?_⟩
  all_goals cbv

/-- A loop that is cut off in a string, inside an `if` in its body. -/
def cutOff : String := "while (f([1])) \x7b let d = \x7b1: \"a\"\x7d; if (x) \x7b \"b"

/-- Two blocks are left open, and no other bracket. -/
theorem awaited_of_clean_cutOff :
    (parse cutOff).errors = [] ∧ (parse cutOff).tree.all Node.plainParameters ∧
    (∃ unclosed ≤ 2, awaited [] (tokenize cutOff) = some (List.replicate unclosed .rbrace)) ∧
    awaited [] (tokenize cutOff) = some [.rbrace, .rbrace] := by
  obtain ⟨hclean, hplain, hblocks, hawaited⟩ : (parse cutOff).errors = [] ∧
      (parse cutOff).tree.all Node.plainParameters ∧ (parse cutOff).tree.blocksAtEnd = 2 ∧
      awaited [] (tokenize cutOff) = some [.rbrace, .rbrace] := by
    refine ⟨?_, ?_, ?_, ?_⟩
    all_goals cbv
  have hunclosed := (awaited_of_clean (by decide) hclean hplain).1
  exact ⟨hclean, hplain, hblocks ▸ hunclosed, hawaited⟩

/-- The texts `while (true) { 1` and `"abc` are read without an error, but the block of the one is
open at its end and the other one is not the string as it is written. -/
theorem not_closed_of_clean :
    ((parse "while (true) \x7b 1").errors = [] ∧
      awaited [] (tokenize "while (true) \x7b 1") = some [.rbrace]) ∧
    (parse "\"abc").errors = [] ∧ tokenize "\"abc" = [⟨.string, "abc"⟩] ∧
      "\"abc".toList ≠ Token.written ⟨.string, "abc"⟩ := by
  refine ⟨⟨?_, ?_⟩, ?_, ?_, by decide⟩
  all_goals cbv

end Monkey
