import Mathlib
import Monkey.Proofs.ParserComplete
import Monkey.Tree.Printer

/-!
# How operators group

A chain is a row of operands with operators between them. An operand is a name, a number, a truth
value or a string behind any number of prefix operators; an operator is any of the nine that stand
between operands.

The tree of a chain is said without a parser: the chain is split at its loosest operator, at the
rightmost one if there are several of them, and both sides are split in the same way (`grouped`).
The parser goes from the left to the right and looks at one token ahead. That it comes to the same
tree rests on `grouped_cons`: it makes no difference whether the first operator takes the tighter
ones behind it first, or the chain is split.

Every chain is covered. A number of a chain can have digits that stand for no integer, or too many
of them; then there is no tree, and the first such number is reported (`parseExpression_chain`).
-/

namespace Monkey

open Parse Reading

/-! ## Chains -/

namespace TokenKind

/-- The kinds of token that are an operand by themselves. -/
def isAtom : TokenKind → Bool
  | ident | int | trueWord | falseWord | string => true
  | _ => false

end TokenKind

namespace Token

/-- The tree of an operand that is a single token. -/
def atomTree (t : Token) : Node :=
  match t.kind with
  | .int => .integer t ((Numeral.readInt? t.literal).getD 0)
  | .trueWord => .boolean t true
  | .falseWord => .boolean t false
  | .string => .string t t.literal
  | _ => .identifier ⟨t, t.literal⟩

/-- Whether a token is a number whose digits stand for no integer. -/
def isUnreadable (t : Token) : Bool :=
  t.kind = .int && (Numeral.readInt? t.literal).isNone

end Token

/-- An operand: a single token behind prefix operators. -/
structure Operand where
  signs : List Token
  atom : Token
  signs_kind : ∀ t ∈ signs, t.kind.isPrefixOperator
  atom_kind : atom.kind.isAtom

/-- A prefix operator in front of an expression. -/
def applySign (t : Token) (e : Node) : Node := .prefixOp t t.literal e

namespace Operand

def tokens (o : Operand) : List Token := o.signs ++ [o.atom]

/-- The prefix operators apply to the single token, the nearest one first. -/
def tree (o : Operand) : Node := o.signs.foldr applySign o.atom.atomTree

end Operand

/-- An operator between operands, and the operand behind it. -/
structure Link where
  operator : Token
  operand : Operand
  operator_kind : operator.kind.isInfixOperator

namespace Link

def tokens (l : Link) : List Token := l.operator :: l.operand.tokens

/-- How tightly the operator binds: equations least, then comparisons, then sums, then products. -/
def rank (l : Link) : Nat :=
  match l.operator.kind with
  | .eq | .notEq => 1
  | .lt | .gt => 2
  | .plus | .minus => 3
  | _ => 4

/-- The operator between two expressions. -/
def join (l : Link) (left right : Node) : Node := .infixOp l.operator l.operator.literal left right

end Link

/-- The tokens of links in a row. -/
def linkTokens (links : List Link) : List Token := links.flatMap Link.tokens

theorem linkTokens_append (links links' : List Link) :
    linkTokens (links ++ links') = linkTokens links ++ linkTokens links' :=
  List.flatMap_append

theorem length_linkTokens_cons (l : Link) (ls : List Link) :
    (linkTokens (l :: ls)).length = l.operand.signs.length + 2 + (linkTokens ls).length := by
  simp [linkTokens, Link.tokens, Operand.tokens]
  omega

theorem length_le_linkTokens (links : List Link) : links.length ≤ (linkTokens links).length := by
  induction links with
  | nil => exact Nat.le_refl 0
  | cons l ls ih =>
    rw [length_linkTokens_cons, List.length_cons]
    omega

/-- The tokens of a chain. -/
def chainTokens (first : Operand) (links : List Link) : List Token :=
  first.tokens ++ linkTokens links

/-- The single tokens among the operands of the links. -/
def atoms (links : List Link) : List Token := links.map fun l => l.operand.atom

/-- The last token of the links; `t` if there are none. -/
def lastToken (t : Token) (links : List Link) : Token := (atoms links).getLast?.getD t

theorem lastToken_append (t : Token) (links links' : List Link) :
    lastToken t (links ++ links') = lastToken (lastToken t links) links' := by
  rw [lastToken, atoms, List.map_append, List.getLast?_append, Option.getD_or]
  rfl

/-! ## Splitting -/

/-- The loosest link, the rightmost one if there are several, with the links before it and behind
it. -/
def loosest? : List Link → Option (List Link × Link × List Link)
  | [] => none
  | l :: ls =>
    match loosest? ls with
    | none => some ([], l, [])
    | some (before, m, behind) =>
      if m.rank ≤ l.rank then some (l :: before, m, behind) else some ([], l, ls)

theorem loosest?_eq_none_iff {links : List Link} : loosest? links = none ↔ links = [] := by
  cases links with
  | nil => simp [loosest?]
  | cons l ls =>
    rw [loosest?]
    split
    · simp
    · split <;> simp

/-- Where a chain is split: no operator is looser, and those behind are tighter. -/
theorem loosest?_eq_some {links before behind : List Link} {m : Link}
    (h : loosest? links = some (before, m, behind)) :
    links = before ++ m :: behind ∧ (∀ l ∈ before, m.rank ≤ l.rank) ∧
      ∀ l ∈ behind, m.rank < l.rank := by
  induction links generalizing before m behind with
  | nil => cases h
  | cons l ls ih =>
    rw [loosest?] at h
    split at h
    · next hnone =>
      cases h
      simp [loosest?_eq_none_iff.mp hnone]
    · next before' m' behind' hsome =>
      obtain ⟨hls, hbefore, hbehind⟩ := ih hsome
      split at h
      · next hle =>
        cases h
        exact ⟨by rw [hls]; rfl, List.forall_mem_cons.mpr ⟨hle, hbefore⟩, hbehind⟩
      · next hlt =>
        cases h
        refine ⟨rfl, fun l hl => absurd hl List.not_mem_nil, fun x hx => ?_⟩
        have hm : m'.rank ≤ x.rank := by
          rw [hls] at hx
          rcases List.mem_append.mp hx with hx | hx
          · exact hbefore x hx
          · rcases List.mem_cons.mp hx with rfl | hx
            · exact Nat.le_refl _
            · exact Nat.le_of_lt (hbehind x hx)
        omega

/-- There is one such place only. -/
theorem loosest?_append {before behind : List Link} {m : Link}
    (hbefore : ∀ l ∈ before, m.rank ≤ l.rank) (hbehind : ∀ l ∈ behind, m.rank < l.rank) :
    loosest? (before ++ m :: behind) = some (before, m, behind) := by
  induction before with
  | nil =>
    rw [List.nil_append, loosest?]
    split
    · next hnone => rw [loosest?_eq_none_iff.mp hnone]
    · next before' m' behind' hsome =>
      have hm' : m' ∈ behind := by rw [(loosest?_eq_some hsome).1]; simp
      exact if_neg (Nat.not_le.mpr (hbehind m' hm'))
  | cons l before ih =>
    rw [List.forall_mem_cons] at hbefore
    rw [List.cons_append, loosest?, ih hbefore.2]
    exact if_pos hbefore.1

/-- The tree of an expression with links behind it: split at the loosest link. -/
def grouped (left : Node) (links : List Link) : Node :=
  match _split : loosest? links with
  | none => left
  | some (before, m, behind) => m.join (grouped left before) (grouped m.operand.tree behind)
termination_by links.length
decreasing_by
  all_goals
    rw [(loosest?_eq_some _split).1, List.length_append, List.length_cons]
    omega

theorem grouped_nil (left : Node) : grouped left [] = left := by
  rw [grouped]
  rfl

theorem grouped_append {left : Node} {before behind : List Link} {m : Link}
    (hbefore : ∀ l ∈ before, m.rank ≤ l.rank) (hbehind : ∀ l ∈ behind, m.rank < l.rank) :
    grouped left (before ++ m :: behind) =
      m.join (grouped left before) (grouped m.operand.tree behind) := by
  rw [grouped]
  split
  · next hnone => cases (loosest?_append hbefore hbehind).symm.trans hnone
  · next hsome =>
    rw [loosest?_append hbefore hbehind] at hsome
    cases hsome
    rfl

/-- Links fall into those that are tighter than a given one, up to a link that is not, and the
others. -/
theorem exists_run (l : Link) (ls : List Link) :
    ∃ run others, ls = run ++ others ∧ (∀ x ∈ run, l.rank < x.rank) ∧
      ∀ x ∈ others.head?, x.rank ≤ l.rank := by
  refine ⟨_, _, (List.takeWhile_append_dropWhile (p := fun x => decide (l.rank < x.rank))).symm,
    fun x hx => ?_, fun x hx => ?_⟩
  · exact of_decide_eq_true (List.all_eq_true.mp List.all_takeWhile x hx)
  · have hhead := List.head?_dropWhile_not (fun x => decide (l.rank < x.rank)) ls
    rw [Option.mem_def.mp hx] at hhead
    simpa using hhead

/-- **Climbing and splitting agree.** The first link may take the tighter links right behind it
first, up to a link that is not tighter. -/
theorem grouped_cons {left : Node} {l : Link} {run others : List Link}
    (hrun : ∀ x ∈ run, l.rank < x.rank) (hothers : ∀ x ∈ others.head?, x.rank ≤ l.rank) :
    grouped left (l :: run ++ others) =
      grouped (l.join left (grouped l.operand.tree run)) others := by
  -- by the length of `others`: where it is split, the part in front has the same first link
  induction hn : others.length using Nat.strongRecOn generalizing others with
  | ind n ih =>
    cases hsplit : loosest? others with
    | none =>
      obtain rfl := loosest?_eq_none_iff.mp hsplit
      rw [List.append_nil, grouped_nil]
      have hnil : ∀ x ∈ ([] : List Link), l.rank ≤ x.rank := fun _ hx => absurd hx List.not_mem_nil
      exact (grouped_append hnil hrun).trans (by rw [grouped_nil])
    | some split =>
      obtain ⟨before, m, behind⟩ := split
      obtain ⟨rfl, hbefore, hbehind⟩ := loosest?_eq_some hsplit
      have hhead : ∀ x ∈ before.head?, x.rank ≤ l.rank := by
        intro x hx
        exact hothers x (by rw [List.head?_append, Option.mem_def.mp hx]; rfl)
      have hm : m.rank ≤ l.rank := by
        cases before with
        | nil => exact hothers m rfl
        | cons x before => exact Nat.le_trans (hbefore x List.mem_cons_self) (hhead x rfl)
      have hfront : ∀ x ∈ l :: run ++ before, m.rank ≤ x.rank := by
        intro x hx
        rcases List.mem_append.mp hx with hx | hx
        · rcases List.mem_cons.mp hx with rfl | hx
          · exact hm
          · exact Nat.le_trans hm (Nat.le_of_lt (hrun x hx))
        · exact hbefore x hx
      have hlength : before.length < n := by
        rw [← hn, List.length_append, List.length_cons]
        omega
      rw [← List.append_assoc, grouped_append hfront hbehind, grouped_append hbefore hbehind,
        ih before.length hlength hhead rfl]

/-! ## Reading -/

/-- The first number among the tokens that is none. -/
def unreadable? (ts : List Token) : Option Token := ts.find? Token.isUnreadable

/-- A step settles some numbers: if all of them can be read, it produces `e` and stops at `stop`;
otherwise it refuses, and reports the first that cannot be read, and nothing else. -/
def Outcome.Settles (ts : List Token) (e : Node) (stop : Reading) (o : Outcome Node) : Prop :=
  o.Meets (fun e' s => unreadable? ts = none ∧ e' = e ∧ s = stop) fun s =>
    ∃ t, unreadable? ts = some t ∧ s.errors = stop.errors ++ [.badInteger t.literal]

namespace Outcome.Settles

variable {ts : List Token} {e : Node} {stop : Reading} {o : Outcome Node}

theorem eq_done (h : o.Settles ts e stop) (hts : unreadable? ts = none) : o = .done e stop := by
  cases o with
  | done e' s =>
    obtain ⟨-, rfl, rfl⟩ := h
    rfl
  | refused s =>
    obtain ⟨t, ht, -⟩ := h
    cases hts.symm.trans ht
  | exhausted => exact h.elim

theorem eq_refused {t : Token} (h : o.Settles ts e stop) (hts : unreadable? ts = some t) :
    ∃ s, o = .refused s ∧ s.errors = stop.errors ++ [.badInteger t.literal] := by
  cases o with
  | done e' s => cases hts.symm.trans h.1
  | refused s =>
    obtain ⟨t', ht', hs⟩ := h
    cases hts.symm.trans ht'
    exact ⟨s, rfl, hs⟩
  | exhausted => exact h.elim

end Outcome.Settles

section

variable {level : Level} {context : Precedence} {rest : List Token} {errors : List SyntaxError}
  {t : Token} {e : Node} {bound depth : Nat}

/-- One step after the other: what is left to read is read only if there was nothing to report. -/
theorem settles_attempt {step : Parse Node} {next : Option Node → Parse Node} {ts us : List Token}
    {e' : Node} {r stop stop' : Reading} (hstep : (step r).Settles ts e stop)
    (hnext : (next (some e) stop).Settles us e' stop') (herrors : stop'.errors = stop.errors)
    (hnone : ∀ s, (next none s).Meets (fun _ _ => False) fun s' => s'.errors = s.errors) :
    ((attempt step >>= next) r).Settles (ts ++ us) e' stop' := by
  unfold Outcome.Settles
  rw [meets_bind, meets_attempt, unreadable?, List.find?_append]
  refine hstep.mono ?_ ?_
  · rintro _ _ ⟨hts, rfl, rfl⟩
    rw [unreadable?] at hts
    rw [hts]
    exact hnext
  · rintro s ⟨t, ht, hs⟩
    rw [unreadable?] at ht
    rw [ht]
    refine (hnone s).mono (fun _ _ h => h.elim) fun s' hs' => ⟨t, rfl, ?_⟩
    rw [hs', hs, herrors]

theorem settles_map {step : Parse Node} {ts : List Token} {r stop : Reading} (f : Node → Node)
    (h : (step r).Settles ts e stop) :
    ((do return f (← step) : Parse Node) r).Settles ts (f e) stop := by
  unfold Outcome.Settles
  rw [meets_bind]
  refine Outcome.Meets.mono h ?_ fun _ h => h
  rintro _ _ ⟨hts, rfl, rfl⟩
  exact ⟨hts, rfl, rfl⟩

/-- Where there is nothing to extend, nothing more is reported. -/
theorem extensions_none_meets (hbound : 0 < bound) (r : Reading) :
    (parseExtensions level context bound none r).Meets (fun _ _ => False)
      fun s => s.errors = r.errors := by
  obtain ⟨bound, rfl⟩ : ∃ k, bound = k + 1 := ⟨bound - 1, by omega⟩
  unfold parseExtensions
  rw [meets_bind]
  exact meets_extends (fun _ => rfl) fun _ => rfl

/-- Where the next token does not bind, the expression stays as it is. -/
theorem settles_unextended (hbound : 0 < bound) (hloose : ¬Binds context (nextKind rest)) :
    (parseExtensions level context bound (some e) ⟨t :: rest, errors⟩).Settles [] e
      ⟨t :: rest, errors⟩ := by
  obtain ⟨bound, rfl⟩ : ∃ k, bound = k + 1 := ⟨bound - 1, by omega⟩
  unfold Outcome.Settles parseExtensions
  rw [meets_bind]
  exact meets_extends (fun h => absurd h hloose) fun _ => ⟨rfl, rfl, rfl⟩

/-- Where the next token binds, the expression is extended by what begins there. -/
theorem settles_extended {ts us : List Token} {e' : Node} {stop : Reading}
    (htight : Binds context (nextKind us))
    (h : ((attempt (parseExtension level e) >>= parseExtensions level context bound)
      ⟨us, errors⟩).Settles ts e' stop) :
    (parseExtensions level context (bound + 1) (some e) ⟨t :: us, errors⟩).Settles ts e' stop := by
  unfold Outcome.Settles at h ⊢
  unfold parseExtensions
  rw [meets_bind]
  exact meets_extends (fun _ => h) fun hloose => absurd htight hloose

/-- An expression is read by its first token and then extended. -/
theorem settles_parseExpression {reading : Parse Node} {ts us : List Token} {e' : Node}
    {r stop stop' : Reading} (hreading : firstReading? level r.current.kind = some reading)
    (hfirst : (reading r).Settles ts e stop)
    (hmore : (parseExtensions level context (stop.tokens.length + 1) (some e) stop).Settles us e'
      stop') (herrors : stop'.errors = stop.errors) :
    (parseExpression level context r).Settles (ts ++ us) e' stop' := by
  unfold Outcome.Settles
  rw [parseExpression, meets_bind, meets_current, hreading]
  exact settles_attempt hfirst hmore herrors fun s => extensions_none_meets (Nat.succ_pos _) s

theorem settles_atom (errors : List SyntaxError) (hkind : t.kind.isAtom)
    (hpoint : nextKind rest ≠ .dot) :
    ∃ reading, firstReading? level t.kind = some reading ∧
      (reading ⟨t :: rest, errors⟩).Settles [t] t.atomTree ⟨t :: rest, errors⟩ := by
  have hnone (h : t.kind ≠ .int) : unreadable? [t] = none := by
    simp [unreadable?, Token.isUnreadable, h]
  unfold Outcome.Settles Token.atomTree
  cases hk : t.kind
  case int =>
    refine ⟨parseNumber, rfl, ?_⟩
    have hpeek : ¬(Reading.mk (t :: rest) errors).peek.kind = .dot := hpoint
    have hcurrent : (Reading.mk (t :: rest) errors).current = t := rfl
    rw [parseNumber, meets_bind, meets_current, hcurrent]
    cases hread : Numeral.readInt? t.literal with
    | none =>
      simp only [meets_bind, meets_report, meets_refuse]
      exact ⟨t, by simp [unreadable?, Token.isUnreadable, hk, hread], rfl⟩
    | some n =>
      rw [meets_bind, meets_peek, if_neg hpeek, meets_pure]
      exact ⟨by simp [unreadable?, Token.isUnreadable, hread], rfl, rfl⟩
  case ident => exact ⟨parseIdentifier, rfl, hnone (by simp [hk]), rfl, rfl⟩
  case string => exact ⟨parseString, rfl, hnone (by simp [hk]), rfl, rfl⟩
  case trueWord =>
    refine ⟨parseBoolean, rfl, hnone (by simp [hk]), ?_, rfl⟩
    show Node.boolean t (decide (t.kind = .trueWord)) = _
    simp [hk]
  case falseWord =>
    refine ⟨parseBoolean, rfl, hnone (by simp [hk]), ?_, rfl⟩
    show Node.boolean t (decide (t.kind = .trueWord)) = _
    simp [hk]
  all_goals
    rw [hk] at hkind
    exact absurd hkind (by decide)

/-- Prefix operators and the token they apply to; nothing behind them binds as tightly. -/
theorem settles_signs {signs : List Token} (errors : List SyntaxError)
    (hsigns : ∀ s ∈ signs, s.kind.isPrefixOperator) (hkind : t.kind.isAtom)
    (hpoint : nextKind rest ≠ .dot)
    (hloose : ¬Binds .prefixed (nextKind rest)) (hdepth : signs.length ≤ depth) :
    ∃ reading, firstReading? (.ofDepth depth) (nextKind (signs ++ [t])) = some reading ∧
      (reading ⟨signs ++ t :: rest, errors⟩).Settles [t] (signs.foldr applySign t.atomTree)
        ⟨t :: rest, errors⟩ := by
  induction signs generalizing depth with
  | nil => exact settles_atom errors hkind hpoint
  | cons sign signs ih =>
    rw [List.forall_mem_cons] at hsigns
    rw [List.length_cons] at hdepth
    obtain ⟨depth, rfl⟩ : ∃ k, depth = k + 1 := ⟨depth - 1, by omega⟩
    obtain ⟨reading, hreading, hsettles⟩ := ih hsigns.2 (Nat.le_of_succ_le_succ hdepth)
    refine ⟨parsePrefix (.ofDepth (depth + 1)), ?_, ?_⟩
    · rcases TokenKind.isPrefixOperator_iff.mp hsigns.1 with h | h <;> simp [h, firstReading?]
    · have hnext :
          (Reading.mk (signs ++ t :: rest) errors).current.kind = nextKind (signs ++ [t]) := by
        cases signs <;> rfl
      rw [← hnext] at hreading
      have hoperand : (parseExpression (.ofDepth depth) .prefixed _).Settles ([t] ++ []) _ _ :=
        settles_parseExpression hreading hsettles (settles_unextended (Nat.succ_pos _) hloose) rfl
      exact settles_map (applySign sign) hoperand

end

/-! ## Links -/

namespace Link

variable (l : Link)

/-- The rank is the one of the level of the operator. -/
theorem rank_eq : l.rank = (Precedence.ofKind l.operator.kind).rank := by
  have h := l.operator_kind
  unfold rank
  cases hk : l.operator.kind <;> rw [hk] at h <;> first | rfl | exact absurd h (by decide)

theorem rank_pos : 0 < l.rank := by
  unfold rank
  split <;> decide

/-- Operators between operands bind less tightly than those in front of them. -/
theorem rank_le_prefixed : l.rank ≤ Precedence.prefixed.rank := by
  unfold rank
  split <;> decide

theorem operator_ne_dot : l.operator.kind ≠ .dot := by
  intro hk
  have h := l.operator_kind
  rw [hk] at h
  exact absurd h (by decide)

end Link

/-- What ends a chain. -/
def EndsChain (rest : List Token) : Prop := nextKind rest = .semicolon ∨ nextKind rest = .eof

section

variable {context : Precedence} {links : List Link} {rest : List Token}
  {errors : List SyntaxError} {t : Token} {left : Node} {bound depth : Nat}

/-- Behind an operand stands another link or the end, and so no point. -/
theorem EndsChain.ne_dot (h : EndsChain rest) (links : List Link) :
    nextKind (linkTokens links ++ rest) ≠ .dot := by
  cases links with
  | nil => rcases h with h | h <;> simp [linkTokens, h]
  | cons l ls => exact l.operator_ne_dot

theorem EndsChain.not_binds (h : EndsChain rest)
    (hlinks : ∀ l ∈ links.head?, l.rank ≤ context.rank) :
    ¬Binds context (nextKind (linkTokens links ++ rest)) := by
  cases links with
  | nil => rcases h with h | h <;> simp [linkTokens, h, Binds, Precedence.ofKind, Precedence.rank]
  | cons l ls =>
    have hrank := hlinks l rfl
    rw [l.rank_eq] at hrank
    exact Nat.not_lt.mpr hrank

/-- An operand, and what extends it. -/
theorem settles_operand {o : Operand} {ts : List Token} {e : Node} {stop : Reading}
    (hrest : EndsChain rest) (hdepth : o.signs.length ≤ depth)
    (hmore : ∀ bound, links.length < bound →
      (parseExtensions (.ofDepth depth) context bound (some o.tree)
        ⟨o.atom :: (linkTokens links ++ rest), errors⟩).Settles ts e stop)
    (herrors : stop.errors = errors) :
    (parseExpression (.ofDepth depth) context
      ⟨chainTokens o links ++ rest, errors⟩).Settles (o.atom :: ts) e stop := by
  obtain ⟨reading, hreading, hfirst⟩ :=
    settles_signs errors o.signs_kind o.atom_kind (hrest.ne_dot links)
      (hrest.not_binds fun l _ => l.rank_le_prefixed) hdepth
  have htokens : chainTokens o links ++ rest =
      o.signs ++ o.atom :: (linkTokens links ++ rest) := by
    simp [chainTokens, Operand.tokens]
  have hcurrent : (Reading.mk (chainTokens o links ++ rest) errors).current.kind =
      nextKind (o.signs ++ [o.atom]) := by
    rw [kind_current, htokens]
    cases o.signs <;> rfl
  rw [← htokens] at hfirst
  rw [← hcurrent] at hreading
  refine settles_parseExpression hreading hfirst (hmore _ ?_) herrors
  have hlength := length_le_linkTokens links
  simp only [List.length_cons, List.length_append]
  omega

/-- The operator of a link, and the operand with what extends it. -/
theorem settles_link {l : Link} {us ts : List Token} {e : Node} {stop : Reading}
    (hright : ((Level.ofDepth depth).expression (.ofKind l.operator.kind)
      ⟨us, errors⟩).Settles ts e stop) :
    (parseExtension (.ofDepth depth) left ⟨l.operator :: us, errors⟩).Settles ts (l.join left e)
      stop := by
  have hinfix : (parseInfix (.ofDepth depth) left ⟨l.operator :: us, errors⟩).Settles ts
      (l.join left e) stop :=
    settles_map (l.join left) hright
  have hkind := l.operator_kind
  have hcurrent : (Reading.mk (l.operator :: us) errors).current = l.operator := rfl
  unfold Outcome.Settles
  rw [parseExtension, meets_bind, meets_current, hcurrent]
  cases hk : l.operator.kind <;> first | exact hinfix | exact absurd hkind (by rw [hk]; decide)

/-- **The links that a context leaves to an expression are read as they are grouped.** -/
theorem settles_links {taken remaining : List Link} (hrest : EndsChain rest)
    (htaken : ∀ l ∈ taken, context.rank < l.rank)
    (hremaining : ∀ l ∈ remaining.head?, l.rank ≤ context.rank) (hbound : taken.length < bound)
    (hdepth : (linkTokens taken).length ≤ depth) :
    (parseExtensions (.ofDepth depth) context bound (some left)
      ⟨t :: (linkTokens (taken ++ remaining) ++ rest), errors⟩).Settles (atoms taken)
      (grouped left taken) ⟨lastToken t taken :: (linkTokens remaining ++ rest), errors⟩ := by
  induction hn : taken.length using Nat.strongRecOn
    generalizing taken remaining context left t bound depth with
  | ind n ih =>
    cases taken with
    | nil =>
      rw [grouped_nil]
      exact settles_unextended hbound (hrest.not_binds hremaining)
    | cons l ls =>
      obtain ⟨run, others, rfl, hrun, hothers⟩ := exists_run l ls
      obtain ⟨bound, rfl⟩ : ∃ k, bound = k + 1 := ⟨bound - 1, by omega⟩
      rw [List.forall_mem_cons, List.forall_mem_append] at htaken
      rw [length_linkTokens_cons, linkTokens_append, List.length_append] at hdepth
      rw [List.length_cons, List.length_append] at hbound hn
      obtain ⟨depth, rfl⟩ : ∃ k, depth = k + 1 := ⟨depth - 1, by omega⟩
      have hbehind : ∀ x ∈ (others ++ remaining).head?, x.rank ≤ l.rank := by
        intro x hx
        cases others with
        | nil => exact Nat.le_trans (hremaining x hx) (Nat.le_of_lt htaken.1)
        | cons y ys => exact hothers x hx
      -- the operand of the first link takes the tighter links behind it, then the others follow
      have hright : (parseExpression (.ofDepth depth) (.ofKind l.operator.kind)
          ⟨chainTokens l.operand (run ++ (others ++ remaining)) ++ rest, errors⟩).Settles
          (l.operand.atom :: atoms run) (grouped l.operand.tree run)
          ⟨lastToken l.operand.atom run :: (linkTokens (others ++ remaining) ++ rest), errors⟩ := by
        refine settles_operand hrest (by omega) (fun bound hbound => ?_) rfl
        rw [List.length_append] at hbound
        rw [l.rank_eq] at hrun hbehind
        exact ih run.length (by omega) hrun hbehind (by omega) (by omega) rfl
      have hmore : ∀ t left, (parseExtensions (.ofDepth (depth + 1)) context bound (some left)
          ⟨t :: (linkTokens (others ++ remaining) ++ rest), errors⟩).Settles (atoms others)
          (grouped left others) ⟨lastToken t others :: (linkTokens remaining ++ rest), errors⟩ :=
        fun t left => ih others.length (by omega) htaken.2.2 hremaining (by omega) (by omega) rfl
      have htokens : linkTokens (l :: (run ++ others) ++ remaining) ++ rest =
          l.operator :: (chainTokens l.operand (run ++ (others ++ remaining)) ++ rest) := by
        simp [linkTokens, chainTokens, Link.tokens]
      have hatoms :
          atoms (l :: (run ++ others)) = (l.operand.atom :: atoms run) ++ atoms others := by
        simp [atoms]
      have hlast : lastToken t (l :: (run ++ others)) =
          lastToken (lastToken l.operand.atom run) others := by
        have hfirst : lastToken t (l :: run) = lastToken l.operand.atom run :=
          lastToken_append t [l] run
        rw [← List.cons_append, lastToken_append, hfirst]
      rw [htokens, hatoms, hlast, ← List.cons_append, grouped_cons hrun hothers]
      have hbinds : Binds context l.operator.kind := by
        rw [Binds, ← l.rank_eq]
        exact htaken.1
      refine settles_extended hbinds (settles_attempt (settles_link hright) (hmore _ _) rfl ?_)
      exact fun s => extensions_none_meets (by omega) s

end

/-- **Operators group by precedence, and those of one precedence from the left.** A chain in front
of a semicolon or of the end of the input is read up to its last token, as the tree it is grouped to
and without an error, if all of its numbers can be read. If not, it is refused, and the first number
that cannot be read is reported, and nothing else. -/
theorem parseExpression_chain (first : Operand) (links : List Link) {rest : List Token}
    (hrest : EndsChain rest) (errors : List SyntaxError) {depth : Nat}
    (hdepth : (chainTokens first links).length ≤ depth) :
    let outcome :=
      parseExpression (.ofDepth depth) .lowest ⟨chainTokens first links ++ rest, errors⟩
    (unreadable? (first.atom :: atoms links) = none → outcome =
      .done (grouped first.tree links) ⟨lastToken first.atom links :: rest, errors⟩) ∧
    ∀ t, unreadable? (first.atom :: atoms links) = some t →
      ∃ stop, outcome = .refused stop ∧ stop.errors = errors ++ [.badInteger t.literal] := by
  intro outcome
  rw [chainTokens, Operand.tokens, List.length_append, List.length_append] at hdepth
  have hsettles : outcome.Settles (first.atom :: atoms links) (grouped first.tree links)
      ⟨lastToken first.atom links :: rest, errors⟩ := by
    refine settles_operand hrest (by omega) (fun bound hbound => ?_) rfl
    have hlinks : (parseExtensions (.ofDepth depth) .lowest bound (some first.tree)
        ⟨first.atom :: (linkTokens (links ++ []) ++ rest), errors⟩).Settles _ _
        ⟨_ :: (linkTokens [] ++ rest), errors⟩ :=
      settles_links hrest (fun l _ => l.rank_pos) (by simp) hbound (by omega)
    rw [List.append_nil] at hlinks
    exact hlinks
  exact ⟨hsettles.eq_done, fun t => hsettles.eq_refused⟩

/-- An operand without prefix operators. -/
def Operand.single (t : Token) (h : t.kind.isAtom) : Operand where
  signs := []
  atom := t
  signs_kind _ h := absurd h List.not_mem_nil
  atom_kind := h

/-- The operand `a`. -/
def sampleOperand : Operand := .single ⟨.ident, "a"⟩ rfl

/-- The operand `-!c`. -/
def signedOperand : Operand where
  signs := [⟨.minus, "-"⟩, ⟨.bang, "!"⟩]
  atom := ⟨.ident, "c"⟩
  signs_kind := by decide
  atom_kind := rfl

/-- The links ` - b * -!c - 2 < d == true`. -/
def sampleLinks : List Link :=
  [⟨⟨.minus, "-"⟩, .single ⟨.ident, "b"⟩ rfl, rfl⟩,
   ⟨⟨.asterisk, "*"⟩, signedOperand, rfl⟩,
   ⟨⟨.minus, "-"⟩, .single ⟨.int, "2"⟩ rfl, rfl⟩,
   ⟨⟨.lt, "<"⟩, .single ⟨.ident, "d"⟩ rfl, rfl⟩,
   ⟨⟨.eq, "=="⟩, .single ⟨.trueWord, "true"⟩ rfl, rfl⟩]

theorem parseExpression_chain_sample :
    let rest : List Token := [⟨.semicolon, ";"⟩, ⟨.ident, "e"⟩]
    EndsChain rest ∧ tokenize "a - b * -!c - 2 < d == true; e" =
      chainTokens sampleOperand sampleLinks ++ rest ∧
    (grouped sampleOperand.tree sampleLinks).text =
      .ok "((((a - (b * (-(!c)))) - 2) < d) == true)" ∧
    parseExpression (.ofDepth 20) .lowest ⟨chainTokens sampleOperand sampleLinks ++ rest, []⟩ =
      .done (grouped sampleOperand.tree sampleLinks) ⟨⟨.trueWord, "true"⟩ :: rest, []⟩ := by
  intro rest
  obtain ⟨htokens, htext, hreadable⟩ :
      tokenize "a - b * -!c - 2 < d == true; e" =
        chainTokens sampleOperand sampleLinks ++ rest ∧
      (grouped sampleOperand.tree sampleLinks).text =
        .ok "((((a - (b * (-(!c)))) - 2) < d) == true)" ∧
      unreadable? (sampleOperand.atom :: atoms sampleLinks) = none := by
    refine ⟨?_, ?_, ?_⟩
    all_goals cbv
  have hrest : EndsChain rest := .inl rfl
  exact ⟨hrest, htokens, htext,
    (parseExpression_chain sampleOperand sampleLinks hrest [] (by decide)).1 hreadable⟩

/-- The operand `²`, whose digit stands for no integer. -/
def superscript : Operand := .single ⟨.int, "²"⟩ rfl

/-- A chain that is not read: its only operand is a number by its kind, and none by its digit. -/
theorem not_done_superscript :
    tokenize "²" = chainTokens superscript [] ∧
    ¬∃ e stop, parseExpression (.ofDepth (depthFor 1)) .lowest ⟨chainTokens superscript [], []⟩ =
      .done e stop := by
  obtain ⟨htokens, hrefused⟩ :
      tokenize "²" = chainTokens superscript [] ∧
      parseExpression (.ofDepth (depthFor 1)) .lowest ⟨chainTokens superscript [], []⟩ =
        .refused ⟨[superscript.atom], [.badInteger "²"]⟩ := by
    refine ⟨?_, ?_⟩
    all_goals cbv
  refine ⟨htokens, ?_⟩
  rintro ⟨e, stop, hdone⟩
  cases hrefused.symm.trans hdone

end Monkey
