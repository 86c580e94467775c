import Mathlib
import Monkey.Proofs.Faults
import Monkey.Proofs.Moments

/-!
# Results without a value

An evaluation can halt, or it can end and give no value. Whatever goes on with the value of a part
hands on either of these (`withValue_lacking`). So there is one answer to the question where such a
result comes from: from the node itself, or from an activity that the node performs
(`evaluateWith_lacking`).
-/

namespace Monkey

/-- Whether evaluation of a node can come to no value by itself, and not only through its parts. -/
def Node.isSilent : Node → Bool
  | missing | program [] | block _ [] => true
  | letBinding .. | constBinding .. | assignment .. | loop .. => true
  | _ => false

/-- Whether what is still to be done around a part hands on its lack of a value. -/
def Pending.handsOn : Pending → Bool
  | call | body | value _ => true
  | frame _ .content | frame _ .branch => true
  | frame _ (.block later) | program _ later => later.isEmpty
  | frame _ (.round ..) | round .. => false

/-- Evaluation of a node in a scope halts by itself, after its parts have been evaluated. -/
inductive StrikesIn (run : Evaluator) (scope : Nat) : Node → Machine → Halt → Machine → Prop where
  | endless (rounds : Rounds (loopRound (run c scope) (run b scope)) roundLimit m m') :
      StrikesIn run scope (.loop t c b) m .endless m'
  | infixOp (left : run e₁ scope m = .ok (some l) m₁) (right : run e₂ scope m₁ = .ok (some r) m')
      (leftNumber : l.number? = some a) (rightNumber : r.number? = some b)
      (fails : Number.Fails o a b fault) :
      StrikesIn run scope (.infixOp t o e₁ e₂) m (.arithmetic fault) m'
  | index (left : run e scope m = .ok (some (.dict identity pairs)) m₁)
      (index : run i scope m₁ = .ok (some (.int n)) m')
      (long : Nat.pow 10 Numeral.digitLimit ≤ n.natAbs) :
      StrikesIn run scope (.index t e i) m (.unprintable .tooManyDigits) m'
  | entry (before : Files (fun e => run e scope) [] earlier m pairs m₁)
      (key : run keyNode scope m₁ = .ok (some (.int n)) m₂)
      (value : run valueNode scope m₂ = .ok (some v) m') (usable : ¬isError (some v))
      (long : Nat.pow 10 Numeral.digitLimit ≤ n.natAbs) :
      StrikesIn run scope (.dictionary t (earlier ++ (keyNode, valueNode) :: later)) m
        (.unprintable .tooManyDigits) m'

/-- An evaluation halts, or it gives no value. -/
inductive Lacking : EStateM.Result Halt Machine (Option Value) → Prop where
  | halted : Lacking (.error halt m)
  | silent : Lacking (.ok none m)

/-- Where a result without a value comes from: the node halts by itself, it is silent, or an activity
that it performs has this result and the node hands it on. -/
inductive LacksIn (run : Evaluator) (scope : Nat) (node : Node) (m : Machine) :
    EStateM.Result Halt Machine (Option Value) → Prop where
  | strikes (halts : StrikesIn run scope node m halt m') : LacksIn run scope node m (.error halt m')
  | silent (silent : node.isSilent) : LacksIn run scope node m (.ok none m')
  | halted (performs : Performs run scope node m pending activity m₁)
      (halts : activity.perform run m₁ = .error halt m') : LacksIn run scope node m (.error halt m')
  | handed (performs : Performs run scope node m pending activity m₁) (hands : pending.handsOn)
      (lacks : activity.perform run m₁ = .ok none m') : LacksIn run scope node m (.ok none m')

section

variable {step : Node → Eval (Option Value)} {m m' : Machine} {halt : Halt}
  {r : EStateM.Result Halt Machine (Option Value)}

/-! ## Steps that go on with values -/

/-- What is computed is a value, unless the computation halts. -/
theorem map_some_lacking {x : Eval Value} (hr : Lacking r) (h : (some <$> x) m = r) :
    ∃ halt m', x m = .error halt m' ∧ r = .error halt m' := by
  rw [map_eq_pure_bind] at h
  cases hx : x m with
  | ok v s =>
    rw [Eval.bind_ok _ hx] at h
    subst h
    cases hr
  | error halt s => exact ⟨halt, s, rfl, h.symm.trans (Eval.bind_error _ hx)⟩

/-- What ends with a value does not lack one. -/
theorem Ends.not_lacking {x : Eval Value} (hx : Ends x) (hr : Lacking r) :
    (some <$> x) m ≠ r := by
  intro h
  obtain ⟨halt, m', herror, -⟩ := map_some_lacking hr h
  exact hx m halt m' herror

/-- A construct that goes on with the value of a part: the part lacks one, or what follows it. -/
theorem withValue_lacking {x : Eval (Option Value)} {next : Value → Eval (Option Value)}
    (hr : Lacking r) (h : withValue x next m = r) :
    x m = r ∨ ∃ v m₁, x m = .ok (some v) m₁ ∧ ¬isError (some v) ∧ next v m₁ = r := by
  cases hx : x m with
  | error halt s => exact .inl ((Eval.bind_error _ hx).symm.trans h)
  | ok result s =>
    have hrest := (Eval.bind_ok _ hx).symm.trans h
    cases result with
    | none => exact .inl hrest
    | some v =>
      cases v with
      | error e =>
        subst hrest
        cases hr
      | _ => exact .inr ⟨_, s, rfl, Bool.false_ne_true, hrest⟩

/-- The same for a list of parts: one of them lacks a value, or what follows. -/
theorem withValues_lacking {nodes : List Node} {next : List Value → Eval (Option Value)}
    (hr : Lacking r) (h : withValues step nodes next m = r) :
    (∃ earlier e later vs m₁, nodes = earlier ++ e :: later ∧ Gives step earlier m vs m₁ ∧
      step e m₁ = r) ∨
    ∃ vs m₁, Gives step nodes m vs m₁ ∧ next vs m₁ = r := by
  induction nodes generalizing m next with
  | nil => exact .inr ⟨[], m, .nil, h⟩
  | cons e nodes ih =>
    rcases withValue_lacking hr h with he | ⟨v, m₁, hv, husable, hmore⟩
    · exact .inl ⟨[], e, nodes, [], m, rfl, .nil, he⟩
    · rcases ih hmore with ⟨earlier, e', later, vs, m₂, rfl, hgives, he⟩ | ⟨vs, m₂, hgives, hnext⟩
      · exact .inl ⟨e :: earlier, e', later, v :: vs, m₂, rfl, .cons hv husable hgives, he⟩
      · exact .inr ⟨v :: vs, m₂, .cons hv husable hgives, hnext⟩

/-- The same for the pairs of a dictionary: the node of a key lacks a value, the node of a value, or
the pair can not be put into the dictionary. -/
theorem withPairs_lacking {nodes : List (Node × Node)} {pairs : Pairs}
    {next : Pairs → Eval (Option Value)} (hr : Lacking r) (hnext : ∀ pairs m, next pairs m ≠ r)
    (h : withPairs step pairs nodes next m = r) :
    ∃ earlier k v later pairs' m₁, nodes = earlier ++ (k, v) :: later ∧
      Files step pairs earlier m pairs' m₁ ∧
      (step k m₁ = r ∨
        ∃ key hash m₂, step k m₁ = .ok (some key) m₂ ∧ ¬isError (some key) ∧
          key.hashKey? = some hash ∧
          (step v m₂ = r ∨
            ∃ value m₃ halt m', step v m₂ = .ok (some value) m₃ ∧ ¬isError (some value) ∧
              insertPair hash (key, value) pairs' m₃ = .error halt m' ∧ r = .error halt m')) := by
  induction nodes generalizing m pairs with
  | nil => exact absurd h (hnext pairs m)
  | cons pair nodes ih =>
    obtain ⟨k, v⟩ := pair
    rcases withValue_lacking hr h with hk | ⟨key, m₁, hkey, husable, hrest⟩
    · exact ⟨[], k, v, nodes, pairs, m, rfl, .nil, .inl hk⟩
    cases hhash : key.hashKey? with
    | none =>
      simp only [hhash] at hrest
      subst hrest
      cases hr
    | some hash =>
      simp only [hhash] at hrest
      rcases withValue_lacking hr hrest with hv | ⟨value, m₂, hvalue, husable', hmore⟩
      · exact ⟨[], k, v, nodes, pairs, m, rfl, .nil,
          .inr ⟨key, hash, m₁, hkey, husable, hhash, .inl hv⟩⟩
      cases hinsert : insertPair hash (key, value) pairs m₂ with
      | error halt s =>
        refine ⟨[], k, v, nodes, pairs, m, rfl, .nil, .inr ⟨key, hash, m₁, hkey, husable, hhash,
          .inr ⟨value, m₂, halt, s, hvalue, husable', hinsert, ?_⟩⟩⟩
        exact hmore.symm.trans (Eval.bind_error _ hinsert)
      | ok pairs₁ s =>
        rw [Eval.bind_ok _ hinsert] at hmore
        obtain ⟨earlier, k', v', later, pairs₂, m₄, rfl, hfiles, hcases⟩ := ih hmore
        exact ⟨(k, v) :: earlier, k', v', later, pairs₂, m₄, rfl,
          .cons hkey husable hhash hvalue husable' hinsert hfiles, hcases⟩

/-! ## Statements -/

/-- Statements in a row halt at one of them, and lack a value if the last one does. -/
theorem row_lacking {row : Option Value → List Node → Eval (Option Value)}
    {ending : Option Value → Option Value} {nodes : List Node} {last : Option Value}
    (hnil : ∀ last, row last [] = pure last)
    (hcons : ∀ last s later, row last (s :: later) = (do
      let result ← step s
      if stops result then return ending result else row result later))
    (hending : ∀ v, ending (some v) ≠ none) (hr : Lacking r) (h : row last nodes m = r) :
    nodes = [] ∧ r = .ok last m ∨
      ∃ earlier s later m₁, nodes = earlier ++ s :: later ∧ Passes step earlier m m₁ ∧
        step s m₁ = r ∧ (later = [] ∨ ∃ halt m', r = .error halt m') := by
  induction nodes generalizing m last with
  | nil =>
    rw [hnil] at h
    exact .inl ⟨rfl, h.symm⟩
  | cons s nodes ih =>
    right
    rw [hcons] at h
    cases hs : step s m with
    | error halt m₁ =>
      rw [Eval.bind_error _ hs] at h
      exact ⟨[], s, nodes, m, rfl, .nil, hs.trans h, .inr ⟨halt, m₁, h.symm⟩⟩
    | ok result m₁ =>
      rw [Eval.bind_ok _ hs] at h
      by_cases hstops : stops result
      · rw [if_pos hstops] at h
        cases result with
        | none => cases hstops
        | some v =>
          cases hlast : ending (some v) with
          | none => exact absurd hlast (hending v)
          | some w =>
            rw [hlast] at h
            subst h
            cases hr
      · rw [if_neg hstops] at h
        rcases ih h with ⟨rfl, hlast⟩ | ⟨earlier, s', later, m₂, rfl, hpasses, hs', hlater⟩
        · exact ⟨[], s, [], m, rfl, .nil, hs.trans hlast.symm, .inl rfl⟩
        · exact ⟨s :: earlier, s', later, m₂, rfl, .cons hs hstops hpasses, hs', hlater⟩

/-- A round halts at the condition or at the body. -/
theorem loopRound_eq_error {c b : Eval (Option Value)} (h : loopRound c b m = .error halt m') :
    c m = .error halt m' ∨
      ∃ v m₁, c m = .ok (some v) m₁ ∧ ¬isError (some v) ∧ v.truthy ∧ b m₁ = .error halt m' := by
  rw [loopRound_eq] at h
  rcases Eval.bind_eq_error h with herror | ⟨condition, m₁, hc, hrest⟩
  · exact .inl herror
  by_cases hcondition : isError condition
  · rw [if_pos hcondition] at hrest
    cases hrest
  rw [if_neg hcondition] at hrest
  by_cases htrue : condition.any Value.truthy
  · rw [if_pos htrue] at hrest
    obtain ⟨v, rfl, hv⟩ := Option.any_eq_true _ _ |>.mp htrue
    have hends (result : Option Value) :
        Ends (if isError result then return some result else return none) := by
      split <;> exact .pure _
    exact .inr ⟨v, m₁, hc, hcondition, hv, (Eval.bind_eq_error_iff hends).mp hrest⟩
  · rw [if_neg htrue] at hrest
    cases hrest

/-- A loop halts in one of its rounds, or because it goes on for too long. -/
theorem repeatRounds_eq_error {round : Eval (Option (Option Value))} {limit : Nat}
    (h : repeatRounds round limit m = .error halt m') :
    (∃ n rest m₁, n + 1 + rest = limit ∧ Rounds round n m m₁ ∧ round m₁ = .error halt m') ∨
      Rounds round limit m m' ∧ halt = .endless := by
  induction limit generalizing m with
  | zero =>
    cases h
    exact .inr ⟨.zero, rfl⟩
  | succ limit ih =>
    rcases Eval.bind_eq_error h with herror | ⟨result, m₁, hround, hrest⟩
    · exact .inl ⟨0, limit, m, by omega, .zero, herror⟩
    · cases result with
      | some ending => cases hrest
      | none =>
        rcases ih hrest with ⟨n, rest, m₂, hsum, hrounds, herror⟩ | ⟨hrounds, rfl⟩
        · exact .inl ⟨n + 1, rest, m₂, by omega, .succ hround hrounds, herror⟩
        · exact .inr ⟨.succ hround hrounds, rfl⟩

/-- A name has a value, or there is an error. -/
theorem evaluateName_not_lacking (name : String) (scope : Nat) (hr : Lacking r) :
    evaluateName name scope m ≠ r := by
  intro h
  have hget : (get : Eval Machine) m = .ok m m := rfl
  rw [evaluateName, Eval.bind_ok _ hget] at h
  cases hlookup : m.lookup? name scope with
  | some v =>
    simp only [hlookup] at h
    subst h
    cases hr
  | none =>
    cases hbuiltin : Builtin.ofName? name with
    | some b | none =>
      simp only [hlookup, hbuiltin] at h
      subst h
      cases hr

theorem declareName_ends (scope : Nat) (name : String) (constant : Bool) (v : Value) :
    Ends (declareName scope name constant v) := nofun

theorem assignName_ends (scope : Nat) (name : String) (v : Value) :
    Ends (assignName scope name v) := by
  refine Ends.bind nofun fun assigned => ?_
  cases assigned <;> exact .pure _

theorem Setting.apply_ends (setting : Setting) (scope : Nat) (v : Value) :
    Ends (setting.apply scope v) := by
  cases setting with
  | declare constant name value => exact declareName_ends scope name constant v
  | assign name value => exact assignName_ends scope name v

end

/-! ## Nodes -/

namespace LacksIn

variable {run : Evaluator} {scope : Nat} {node : Node} {m : Machine}
  {r : EStateM.Result Halt Machine (Option Value)}

/-- An activity that the node performs lacks a value, and the node hands that on. -/
theorem performing {pending : Pending} {activity : Activity} {m₁ : Machine} (hr : Lacking r)
    (hperforms : Performs run scope node m pending activity m₁) (hands : pending.handsOn)
    (h : activity.perform run m₁ = r) : LacksIn run scope node m r := by
  cases hr with
  | halted => exact .halted hperforms h
  | silent => exact .handed hperforms hands h

/-- Where the node goes on with the value of a part, the part lacks one, or what follows it. -/
theorem operand {pending : Pending} {e : Node} {next : Value → Eval (Option Value)} {m₁ : Machine}
    (hr : Lacking r) (hpart : Performs run scope node m pending (.node e scope) m₁)
    (hands : pending.handsOn) (h : withValue (run e scope) next m₁ = r)
    (hnext : ∀ v m₂, run e scope m₁ = .ok (some v) m₂ → ¬isError (some v) → next v m₂ = r →
      LacksIn run scope node m r) : LacksIn run scope node m r := by
  rcases withValue_lacking hr h with he | ⟨v, m₂, hv, husable, hrest⟩
  · exact performing hr hpart hands he
  · exact hnext v m₂ hv husable hrest

/-- A declaration or an assignment is silent, and halts at its expression. -/
theorem setting {setting : Setting} (hsetting : node.setting? = some setting)
    (hsilent : node.isSilent) (hr : Lacking r) (h : evaluateWith run node scope m = r) :
    LacksIn run scope node m r := by
  cases hr with
  | silent => exact .silent hsilent
  | halted =>
    rw [evaluateWith_of_setting? _ _ hsetting, withBound] at h
    by_cases hvalue : setting.value.isExpression
    · obtain ⟨pending, hpart⟩ := Performs.of_setting? hsetting hvalue
      rw [if_pos hvalue] at h
      rcases withValue_lacking .halted h with herror | ⟨v, m₁, -, -, hrest⟩
      · exact .halted hpart herror
      · exact absurd hrest (setting.apply_ends scope v m₁ _ _)
    · rw [if_neg hvalue] at h
      cases h

theorem program {statements : List Node} (hr : Lacking r)
    (h : evaluateWith run (.program statements) scope m = r) :
    LacksIn run scope (.program statements) m r := by
  rcases row_lacking (fun _ => rfl) evaluateProgram_cons (fun v => Option.some_ne_none _) hr h with
    ⟨rfl, rfl⟩ | ⟨earlier, s, later, m₁, rfl, hpasses, hs, rfl | ⟨halt, m', rfl⟩⟩
  · exact .silent rfl
  · exact performing hr (.program hpasses) rfl hs
  · exact .halted (.program hpasses) hs

theorem block {t : Token} {statements : List Node} (hr : Lacking r)
    (h : evaluateWith run (.block t statements) scope m = r) :
    LacksIn run scope (.block t statements) m r := by
  rcases row_lacking (fun _ => rfl) evaluateBlock_cons (fun v => Option.some_ne_none v) hr h with
    ⟨rfl, rfl⟩ | ⟨earlier, s, later, m₁, rfl, hpasses, hs, rfl | ⟨halt, m', rfl⟩⟩
  · exact .silent rfl
  · exact performing hr (.inside (.block hpasses)) rfl hs
  · exact .halted (.inside (.block hpasses)) hs

/-- A loop is silent, and halts at its condition or its body in some round, or because of the number
of rounds. -/
theorem loop {t : Token} {c b : Node} (hr : Lacking r)
    (h : evaluateWith run (.loop t c b) scope m = r) : LacksIn run scope (.loop t c b) m r := by
  cases hr with
  | silent => exact .silent rfl
  | halted =>
    rcases repeatRounds_eq_error h with ⟨n, rest, m₁, hsum, hrounds, herror⟩ | ⟨hrounds, rfl⟩
    · rcases loopRound_eq_error herror with herror | ⟨v, m₂, hv, husable, htrue, herror⟩
      · exact .halted (.round hrounds hsum) herror
      · exact .halted (.inside (.loop hrounds hsum hv husable htrue)) herror
    · exact .strikes (.endless hrounds)

theorem ifThen {t : Token} {c b : Node} (hr : Lacking r)
    (h : evaluateWith run (.ifThen t c b) scope m = r) : LacksIn run scope (.ifThen t c b) m r := by
  refine operand hr .ifThen rfl h fun v m₁ hv husable hrest => ?_
  by_cases htrue : v.truthy
  · rw [if_pos htrue] at hrest
    exact performing hr (.inside (.ifThen hv husable htrue)) rfl hrest
  · rw [if_neg htrue] at hrest
    subst hrest
    cases hr

theorem ifElse {t : Token} {c b₁ b₂ : Node} (hr : Lacking r)
    (h : evaluateWith run (.ifElse t c b₁ b₂) scope m = r) :
    LacksIn run scope (.ifElse t c b₁ b₂) m r := by
  refine operand hr .ifElse rfl h fun v m₁ hv husable hrest => ?_
  by_cases htrue : v.truthy
  · rw [if_pos htrue] at hrest
    exact performing hr (.inside (.ifElse hv husable htrue)) rfl hrest
  · rw [if_neg htrue] at hrest
    exact performing hr (.inside (.otherwise hv husable htrue)) rfl hrest

/-- An operation lacks an operand, or it has no value for its operands. -/
theorem infixOp {t : Token} {o : String} {e₁ e₂ : Node} (hr : Lacking r)
    (h : evaluateWith run (.infixOp t o e₁ e₂) scope m = r) :
    LacksIn run scope (.infixOp t o e₁ e₂) m r := by
  refine operand hr .left rfl h fun l m₁ hl husable hrest => ?_
  refine operand hr (.right hl husable) rfl hrest fun r m₂ hr' _ hrest => ?_
  obtain ⟨halt, m', herror, rfl⟩ := map_some_lacking hr hrest
  obtain ⟨rfl, a, b, fault, ha, hb, rfl, hfails⟩ := applyInfix_eq_error_iff.mp herror
  exact .strikes (.infixOp hl hr' ha hb hfails)

/-- An index lacks an operand, or it can not be written out. -/
theorem index {t : Token} {e i : Node} (hr : Lacking r)
    (h : evaluateWith run (.index t e i) scope m = r) : LacksIn run scope (.index t e i) m r := by
  refine operand hr .indexed rfl h fun l m₁ hl husable hrest => ?_
  refine operand hr (.index hl husable) rfl hrest fun r m₂ hr' _ hrest => ?_
  obtain ⟨halt, m', herror, rfl⟩ := map_some_lacking hr hrest
  obtain ⟨rfl, rfl, identity, pairs, n, rfl, rfl, hlong⟩ := applyIndex_eq_error_iff.mp herror
  exact .strikes (.index hl hr' hlong)

/-- What is called lacks a value, or an argument, or the call. -/
theorem call {t : Token} {f : Node} {es : List Node} (hr : Lacking r)
    (h : evaluateWith run (.call t f es) scope m = r) : LacksIn run scope (.call t f es) m r := by
  refine operand hr .callee rfl h fun v m₁ hv husable hrest => ?_
  rcases withValues_lacking hr hrest with ⟨earlier, e, later, vs, m₂, rfl, hgives, he⟩ |
    ⟨vs, m₂, hgives, hcall⟩
  · exact performing hr (.argument hv husable hgives) rfl he
  · exact performing hr (.call hv husable hgives) rfl hcall

theorem array {t : Token} {es : List Node} (hr : Lacking r)
    (h : evaluateWith run (.array t es) scope m = r) : LacksIn run scope (.array t es) m r := by
  rcases withValues_lacking hr h with ⟨earlier, e, later, vs, m₁, rfl, hgives, he⟩ |
    ⟨vs, m₁, -, hrest⟩
  · exact performing hr (.element hgives) rfl he
  · exact absurd hrest ((Ends.array vs).not_lacking hr)

/-- A key lacks a value, or what is filed under it, or the key can not be written out. -/
theorem dictionary {t : Token} {pairs : List (Node × Node)} (hr : Lacking r)
    (h : evaluateWith run (.dictionary t pairs) scope m = r) :
    LacksIn run scope (.dictionary t pairs) m r := by
  obtain ⟨earlier, k, v, later, pairs', m₁, rfl, hfiles, hk | ⟨key, hash, m₂, hkey, husable, hhash,
    hv | ⟨value, m₃, halt, m', hvalue, husable', hinsert, rfl⟩⟩⟩ :=
    withPairs_lacking hr (fun entries _ => (Ends.dict entries).not_lacking hr) h
  · exact performing hr (.key hfiles) rfl hk
  · exact performing hr (.entry hfiles hkey husable hhash) rfl hv
  · obtain ⟨rfl, rfl, n, rfl, hlong⟩ := (insertPair_eq_error_iff hhash).mp hinsert
    exact .strikes (.entry hfiles hkey hvalue husable' hlong)

end LacksIn

/-- **A node lacks a value by itself, or because an activity that it performs does.** -/
theorem evaluateWith_lacking {run : Evaluator} {scope : Nat} {node : Node} {m : Machine}
    {r : EStateM.Result Halt Machine (Option Value)} (hr : Lacking r)
    (h : evaluateWith run node scope m = r) : LacksIn run scope node m r := by
  cases node with
  | integer | float | boolean | string | function =>
    subst h
    cases hr
  | missing =>
    subst h
    exact .silent rfl
  | identifier name => exact absurd h (evaluateName_not_lacking _ _ hr)
  | letBinding | constBinding | assignment => exact .setting rfl rfl hr h
  | program => exact .program hr h
  | block => exact .block hr h
  | statement => exact .performing hr (.inside .content) rfl h
  | returning =>
    refine .operand hr .returning rfl h fun v m₁ _ _ hrest => ?_
    subst hrest
    cases hr
  | prefixOp t o e =>
    exact .operand hr .operand rfl h fun v m₁ _ _ hrest =>
      absurd hrest ((applyPrefix_ends o v).not_lacking hr)
  | loop => exact .loop hr h
  | infixOp => exact .infixOp hr h
  | ifThen => exact .ifThen hr h
  | ifElse => exact .ifElse hr h
  | call => exact .call hr h
  | array => exact .array hr h
  | index => exact .index hr h
  | dictionary => exact .dictionary hr h

/-- A call lacks a value if the body of the function does, or if a built-in function halts. -/
theorem applyFunction_lacking {run : Evaluator} {f : Value} {vs : List Value} {m : Machine}
    {r : EStateM.Result Halt Machine (Option Value)} (hr : Lacking r)
    (h : applyFunction run f vs m = r) :
    (∃ b halt m', f = .builtin b ∧ r = .error halt m' ∧ b.Fails vs m halt m') ∨
      ∃ i parameters body s bindings, f = .function i parameters body s ∧
        bindParameters [] parameters vs = .ok bindings ∧
        run body m.scopes.size (m.addScope ⟨some s, bindings⟩).2 = r := by
  cases f with
  | function i parameters body s =>
    cases hbind : bindParameters [] parameters vs with
    | error e =>
      simp only [applyFunction, hbind] at h
      subst h
      cases hr
    | ok bindings =>
      refine .inr ⟨i, parameters, body, s, bindings, rfl, hbind, ?_⟩
      rw [applyFunction_ok m hbind] at h
      cases hbody : run body m.scopes.size (m.addScope ⟨some s, bindings⟩).2 with
      | error halt m' => exact (Eval.bind_error _ hbody).symm.trans h
      | ok result m' =>
        rw [Eval.bind_ok _ hbody] at h
        cases result with
        | none => exact h
        | some v =>
          subst h
          cases hr
  | builtin b =>
    obtain ⟨halt, m', herror, rfl⟩ := map_some_lacking hr h
    exact .inl ⟨b, halt, m', rfl, rfl, Builtin.fails_of_call herror⟩
  | _ =>
    subst h
    cases hr

end Monkey
