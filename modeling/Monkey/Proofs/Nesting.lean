import Monkey.Proofs.Route

/-!
# Which evaluations an evaluation performs

To evaluate a node is to evaluate some of its parts, one after the other, and to do something with
their results; to call a function is to evaluate its body. `Performs` says which parts those are, in
which state of the machine each of them starts, and what is still to be done with its result.

* `evaluateWith_of_performs` — evaluation is that of the part, and then the rest is taken up.
* `evaluateWith_congr` — nothing else is evaluated: two ways to evaluate parts that agree on the
  parts listed by `Performs` give the same result.

`Nested` is `Performs` to any depth, through calls and loops; `perform_of_nested` cuts evaluation
there.
-/

namespace Monkey

/-- What is carried out: the evaluation of a node in a scope, or the call of a function. -/
inductive Activity where
  | node (part : Node) (scope : Nat)
  | call (function : Value) (arguments : List Value)

/-- Carries out an activity, where `run` evaluates nodes. -/
def Activity.perform (run : Evaluator) : Activity → Eval (Option Value)
  | node part scope => run part scope
  | call function arguments => applyFunction run function arguments

/-- What is still to be done with the result of an activity. -/
inductive Pending where
  /-- A call expression, around the call: nothing. -/
  | call
  /-- A call, around the body of the function: a wrapper is opened. -/
  | body
  /-- A statement, branch, block or loop, around a statement or a block. -/
  | frame (scope : Nat) (inner : Frame)
  /-- A program, around one of its statements; `later` stand behind it. -/
  | program (scope : Nat) (later : List Node)
  /-- A loop, around its condition; `limit` more rounds are allowed. -/
  | round (scope : Nat) (condition body : Node) (limit : Nat)
  /-- A construct that goes on with the value of a part. -/
  | value (next : Evaluator → Value → Eval (Option Value))

/-- Takes up what is still to be done, where `run` evaluates nodes. -/
def Pending.resume (run : Evaluator) : Pending → Option Value → Eval (Option Value)
  | call, result => return result
  | body, result => return result.map Value.unwrap
  | frame scope inner, result => inner.resume (fun part => run part scope) result
  | program scope later, result =>
    if stops result then return result.map Value.unwrap
    else evaluateProgram (fun part => run part scope) result later
  | round scope c b limit, result => do
    match ← loopRound (pure result) (run b scope) with
    | some ending => return ending
    | none => repeatRounds (loopRound (run c scope) (run b scope)) limit
  | value next, result => withValue (pure result) (next run)

/-! ## What was done before a part -/

/-- The nodes are evaluated one after the other, and each gives a value that is no error. -/
inductive Gives (step : Node → Eval (Option Value)) :
    List Node → Machine → List Value → Machine → Prop where
  | nil : Gives step [] m [] m
  | cons (first : step node m = .ok (some v) m₁) (usable : ¬isError (some v))
      (more : Gives step nodes m₁ vs m₂) : Gives step (node :: nodes) m (v :: vs) m₂

/-- The nodes of pairs are evaluated one after the other, and the pairs are put into a dictionary.
-/
inductive Files (step : Node → Eval (Option Value)) :
    Pairs → List (Node × Node) → Machine → Pairs → Machine → Prop where
  | nil : Files step pairs [] m pairs m
  | cons (key : step keyNode m = .ok (some k) m₁) (usableKey : ¬isError (some k))
      (hash : k.hashKey? = some h) (value : step valueNode m₁ = .ok (some v) m₂)
      (usableValue : ¬isError (some v)) (insert : insertPair h (k, v) pairs m₂ = .ok pairs₁ m₃)
      (more : Files step pairs₁ nodes m₃ pairs₂ m₄) :
      Files step pairs ((keyNode, valueNode) :: nodes) m pairs₂ m₄

/-! ## The parts of a node -/

/-- Evaluation of a node in a scope performs an activity, from the machine `m'` on. -/
inductive Performs (run : Evaluator) (scope : Nat) :
    Node → Machine → Pending → Activity → Machine → Prop where
  -- Statements
  | inside (entered : Enters (fun part => run part scope) node m frame part m') :
      Performs run scope node m (.frame scope frame) (.node part scope) m'
  | program (before : Passes (fun part => run part scope) earlier m m') :
      Performs run scope (.program (earlier ++ s :: later)) m (.program scope later)
        (.node s scope) m'
  | round (before : Rounds (loopRound (run c scope) (run b scope)) n m m')
      (allowed : n + 1 + limit = roundLimit) :
      Performs run scope (.loop t c b) m (.round scope c b limit) (.node c scope) m'
  | letBinding (expression : e.isExpression) :
      Performs run scope (.letBinding t x e) m (.value fun _ => declareName scope x.value false)
        (.node e scope) m
  | constBinding (expression : e.isExpression) :
      Performs run scope (.constBinding t x e) m (.value fun _ => declareName scope x.value true)
        (.node e scope) m
  | assignment (expression : e.isExpression) :
      Performs run scope (.assignment t x e) m (.value fun _ => assignName scope x.value)
        (.node e scope) m
  | returning :
      Performs run scope (.returning t e) m
        (.value fun _ v => do return some (.returned (← Eval.identity) v)) (.node e scope) m
  -- Conditions
  | ifThen :
      Performs run scope (.ifThen t c b) m
        (.value fun run v => if v.truthy then run b scope else return some .null) (.node c scope) m
  | ifElse :
      Performs run scope (.ifElse t c b₁ b₂) m
        (.value fun run v => if v.truthy then run b₁ scope else run b₂ scope) (.node c scope) m
  -- Operands
  | operand :
      Performs run scope (.prefixOp t o e) m (.value fun _ v => some <$> applyPrefix o v)
        (.node e scope) m
  | left :
      Performs run scope (.infixOp t o e₁ e₂) m
        (.value fun run l => withValue (run e₂ scope) fun r => some <$> applyInfix o l r)
        (.node e₁ scope) m
  | right (left : run e₁ scope m = .ok (some l) m') (usable : ¬isError (some l)) :
      Performs run scope (.infixOp t o e₁ e₂) m (.value fun _ r => some <$> applyInfix o l r)
        (.node e₂ scope) m'
  | indexed :
      Performs run scope (.index t e i) m
        (.value fun run l => withValue (run i scope) fun r => some <$> applyIndex l r)
        (.node e scope) m
  | index (left : run e scope m = .ok (some l) m') (usable : ¬isError (some l)) :
      Performs run scope (.index t e i) m (.value fun _ r => some <$> applyIndex l r)
        (.node i scope) m'
  -- Calls
  | callee :
      Performs run scope (.call t f es) m
        (.value fun run v => withValues (fun e => run e scope) es fun vs => applyFunction run v vs)
        (.node f scope) m
  | argument (callee : run f scope m = .ok (some v) m₁) (usable : ¬isError (some v))
      (before : Gives (fun e => run e scope) earlier m₁ vs m') :
      Performs run scope (.call t f (earlier ++ e :: later)) m
        (.value fun run w => withValues (fun e => run e scope) later fun ws =>
          applyFunction run v (vs ++ w :: ws))
        (.node e scope) m'
  | call (callee : run f scope m = .ok (some v) m₁) (usable : ¬isError (some v))
      (arguments : Gives (fun e => run e scope) es m₁ vs m') :
      Performs run scope (.call t f es) m .call (.call v vs) m'
  -- Elements and pairs
  | element (before : Gives (fun e => run e scope) earlier m vs m') :
      Performs run scope (.array t (earlier ++ e :: later)) m
        (.value fun run w => withValues (fun e => run e scope) later fun ws =>
          some <$> Eval.array (vs ++ w :: ws))
        (.node e scope) m'
  | key (before : Files (fun e => run e scope) [] earlier m pairs m') :
      Performs run scope (.dictionary t (earlier ++ (keyNode, valueNode) :: later)) m
        (.value fun run k =>
          match k.hashKey? with
          | none => complain (.unusableKey k.kind)
          | some h =>
            withValue (run valueNode scope) fun v => do
              withPairs (fun e => run e scope) (← insertPair h (k, v) pairs) later
                fun entries => some <$> Eval.dict entries)
        (.node keyNode scope) m'
  | entry (before : Files (fun e => run e scope) [] earlier m pairs m₁)
      (key : run keyNode scope m₁ = .ok (some k) m') (usable : ¬isError (some k))
      (hash : k.hashKey? = some h) :
      Performs run scope (.dictionary t (earlier ++ (keyNode, valueNode) :: later)) m
        (.value fun run v => do
          withPairs (fun e => run e scope) (← insertPair h (k, v) pairs) later
            fun entries => some <$> Eval.dict entries)
        (.node valueNode scope) m'

/-! ## Cutting evaluation at a part -/

section

variable {step step' : Node → Eval (Option Value)} {m m' : Machine}

/-- A program evaluates its first statement and goes on, or stops with what is in the wrapper. -/
theorem evaluateProgram_cons (last : Option Value) (s : Node) (later : List Node) :
    evaluateProgram step last (s :: later) = (do
      let result ← step s
      if stops result then return result.map Value.unwrap
      else evaluateProgram step result later) := by
  refine bind_congr fun result => ?_
  cases result with
  | none => rfl
  | some v => cases v <;> rfl

/-- Statements that pass leave the rest of the program to do. -/
theorem evaluateProgram_of_passes {earlier : List Node} (h : Passes step earlier m m')
    (later : List Node) (last : Option Value) :
    ∃ last', evaluateProgram step last (earlier ++ later) m =
      evaluateProgram step last' later m' := by
  induction h generalizing last with
  | nil => exact ⟨last, rfl⟩
  | cons first goesOn _ ih =>
    obtain ⟨last', hlast⟩ := ih _
    refine ⟨last', ?_⟩
    rw [List.cons_append, evaluateProgram_cons, Eval.bind_ok _ first, if_neg goesOn]
    exact hlast

/-- Values that are there leave the rest of the list to evaluate. -/
theorem withValues_of_gives {earlier : List Node} {vs : List Value}
    (h : Gives step earlier m vs m') (later : List Node)
    (next : List Value → Eval (Option Value)) :
    withValues step (earlier ++ later) next m =
      withValues step later (fun ws => next (vs ++ ws)) m' := by
  induction h generalizing next with
  | nil => rfl
  | cons first usable _ ih =>
    rw [List.cons_append, withValues, withValue_ok _ first usable, ih]
    rfl

theorem withValues_eq_of_gives {nodes : List Node} {vs : List Value}
    (h : Gives step nodes m vs m') (next : List Value → Eval (Option Value)) :
    withValues step nodes next m = next vs m' := by
  have hvalues := withValues_of_gives h [] next
  rw [List.append_nil, withValues, List.append_nil] at hvalues
  exact hvalues

/-- Pairs that are filed leave the rest of the dictionary to evaluate. -/
theorem withPairs_of_files {earlier : List (Node × Node)} {pairs pairs' : Pairs}
    (h : Files step pairs earlier m pairs' m') (later : List (Node × Node))
    (next : Pairs → Eval (Option Value)) :
    withPairs step pairs (earlier ++ later) next m = withPairs step pairs' later next m' := by
  induction h with
  | nil => rfl
  | cons key usableKey hash value usableValue insert _ ih =>
    rw [List.cons_append, withPairs, withValue_ok _ key usableKey, hash]
    simp only [withValue_ok _ value usableValue, Eval.bind_ok _ insert]
    exact ih

/-- **A node is the part it performs, and then what it does with the result.** -/
theorem evaluateWith_of_performs {run : Evaluator} {scope : Nat} {node : Node} {pending : Pending}
    {activity : Activity} (h : Performs run scope node m pending activity m') :
    evaluateWith run node scope m = (activity.perform run >>= pending.resume run) m' := by
  cases h with
  | inside entered => exact evaluateWith_of_enters entered
  | program before =>
    obtain ⟨last, hlast⟩ := evaluateProgram_of_passes before (_ :: _) none
    rw [evaluateWith, hlast, evaluateProgram_cons]
    rfl
  | round before allowed =>
    rw [evaluateWith, ← allowed, Nat.add_assoc, repeatRounds_of_rounds before, Nat.add_comm 1,
      repeatRounds, loopRound, bind_assoc]
    rfl
  | letBinding expression | constBinding expression | assignment expression =>
    rw [evaluateWith, withBound, if_pos expression]
    rfl
  | returning | ifThen | ifElse | operand | left | indexed | callee => rfl
  | right left usable | index left usable =>
    rw [evaluateWith, withValue_ok _ left usable]
    rfl
  | argument callee usable before =>
    rw [evaluateWith, withValue_ok _ callee usable, withValues_of_gives before]
    rfl
  | call callee usable arguments =>
    rw [evaluateWith, withValue_ok _ callee usable, withValues_eq_of_gives arguments]
    exact congrFun (bind_pure _).symm m'
  | element before =>
    rw [evaluateWith, withValues_of_gives before]
    rfl
  | key before =>
    rw [evaluateWith, withPairs_of_files before]
    rfl
  | entry before key usable hash =>
    rw [evaluateWith, withPairs_of_files before, withPairs, withValue_ok _ key usable, hash]
    rfl

/-! ## Nothing else is evaluated -/

/-- Two steps agree if their first parts do, and their second parts on what these give. -/
theorem Eval.bind_congr_ok {x y : Eval α} {f g : α → Eval β} (h : x m = y m)
    (hnext : ∀ a m₁, x m = .ok a m₁ → f a m₁ = g a m₁) : (x >>= f) m = (y >>= g) m := by
  rw [← Eval.bind_eq_bind g h]
  cases hx : x m with
  | ok a m₁ => rw [Eval.bind_ok f hx, Eval.bind_ok g hx, hnext a m₁ hx]
  | error e m₁ =>
    show EStateM.bind x f m = EStateM.bind x g m
    rw [EStateM.bind, EStateM.bind, hx]

/-- Constructs that go on with a value agree if they get the same one. -/
theorem withValue_congr {x y : Eval (Option Value)} {next next' : Value → Eval (Option Value)}
    (h : x m = y m)
    (hnext : ∀ v m₁, x m = .ok (some v) m₁ → ¬isError (some v) → next v m₁ = next' v m₁) :
    withValue x next m = withValue y next' m := by
  refine Eval.bind_congr_ok h fun r m₁ hr => ?_
  cases r with
  | none => rfl
  | some v =>
    cases v with
    | error e => rfl
    | _ => exact hnext _ m₁ hr Bool.false_ne_true

theorem withBound_congr {value : Node} {next : Value → Eval (Option Value)}
    (h : value.isExpression → step value m = step' value m) :
    withBound step value next m = withBound step' value next m := by
  rw [withBound, withBound]
  split
  · next hvalue => exact withValue_congr (h hvalue) fun _ _ _ _ => rfl
  · rfl

/-- A block agrees if every statement that is come to does. -/
theorem evaluateBlock_congr {nodes : List Node} (last : Option Value)
    (h : ∀ earlier s later m', nodes = earlier ++ s :: later → Passes step earlier m m' →
      step s m' = step' s m') :
    evaluateBlock step last nodes m = evaluateBlock step' last nodes m := by
  induction nodes generalizing m last with
  | nil => rfl
  | cons s nodes ih =>
    rw [evaluateBlock_cons, evaluateBlock_cons]
    refine Eval.bind_congr_ok (h [] s nodes m rfl .nil) fun r m₁ hr => ?_
    rw [Frame.resume, Frame.resume]
    by_cases hstops : stops r
    · rw [if_pos hstops, if_pos hstops]
    · rw [if_neg hstops, if_neg hstops]
      refine ih r fun earlier s' later m' hnodes before => ?_
      exact h (s :: earlier) s' later m' (by rw [hnodes]; rfl) (.cons hr hstops before)

/-- The same for a program. -/
theorem evaluateProgram_congr {nodes : List Node} (last : Option Value)
    (h : ∀ earlier s later m', nodes = earlier ++ s :: later → Passes step earlier m m' →
      step s m' = step' s m') :
    evaluateProgram step last nodes m = evaluateProgram step' last nodes m := by
  induction nodes generalizing m last with
  | nil => rfl
  | cons s nodes ih =>
    rw [evaluateProgram_cons, evaluateProgram_cons]
    refine Eval.bind_congr_ok (h [] s nodes m rfl .nil) fun r m₁ hr => ?_
    by_cases hstops : stops r
    · rw [if_pos hstops, if_pos hstops]
    · rw [if_neg hstops, if_neg hstops]
      refine ih r fun earlier s' later m' hnodes before => ?_
      exact h (s :: earlier) s' later m' (by rw [hnodes]; rfl) (.cons hr hstops before)

theorem loopRound_congr {c c' b b' : Eval (Option Value)} (hcondition : c m = c' m)
    (hbody : ∀ v m₁, c m = .ok (some v) m₁ → ¬isError (some v) → v.truthy → b m₁ = b' m₁) :
    loopRound c b m = loopRound c' b' m := by
  rw [loopRound_eq, loopRound_eq]
  refine Eval.bind_congr_ok hcondition fun r m₁ hr => ?_
  by_cases herror : isError r
  · rw [if_pos herror, if_pos herror]
  rw [if_neg herror, if_neg herror]
  by_cases htrue : r.any Value.truthy
  · rw [if_pos htrue, if_pos htrue]
    obtain ⟨v, rfl, hv⟩ := Option.any_eq_true _ _ |>.mp htrue
    exact Eval.bind_congr_ok (hbody v m₁ hr herror hv) fun _ _ _ => rfl
  · rw [if_neg htrue, if_neg htrue]

/-- A loop agrees if the condition and the body do in every round that is come to. -/
theorem repeatRounds_congr {c c' b b' : Eval (Option Value)} {limit : Nat}
    (hcondition : ∀ n m₁, n + 1 ≤ limit → Rounds (loopRound c b) n m m₁ → c m₁ = c' m₁)
    (hbody : ∀ n m₁ v m₂, n + 1 ≤ limit → Rounds (loopRound c b) n m m₁ →
      c m₁ = .ok (some v) m₂ → ¬isError (some v) → v.truthy → b m₂ = b' m₂) :
    repeatRounds (loopRound c b) limit m = repeatRounds (loopRound c' b') limit m := by
  induction limit generalizing m with
  | zero => rfl
  | succ limit ih =>
    have hround : loopRound c b m = loopRound c' b' m :=
      loopRound_congr (hcondition 0 m (by omega) .zero) fun v m₁ hv husable htrue =>
        hbody 0 m v m₁ (by omega) .zero hv husable htrue
    refine Eval.bind_congr_ok hround fun r m₁ hr => ?_
    cases r with
    | some ending => rfl
    | none =>
      refine ih (fun n m₂ hn before => ?_) fun n m₂ v m₃ hn before => ?_
      · exact hcondition (n + 1) m₂ (by omega) (.succ hr before)
      · exact hbody (n + 1) m₂ v m₃ (by omega) (.succ hr before)

theorem withValues_congr {nodes : List Node} {next next' : List Value → Eval (Option Value)}
    (h : ∀ earlier e later vs m', nodes = earlier ++ e :: later → Gives step earlier m vs m' →
      step e m' = step' e m')
    (hnext : ∀ vs m', Gives step nodes m vs m' → next vs m' = next' vs m') :
    withValues step nodes next m = withValues step' nodes next' m := by
  induction nodes generalizing m next next' with
  | nil => exact hnext [] m .nil
  | cons e nodes ih =>
    refine withValue_congr (h [] e nodes [] m rfl .nil) fun v m₁ hv husable => ?_
    refine ih (fun earlier e' later vs m' hnodes before => ?_) fun vs m' hgives => ?_
    · exact h (e :: earlier) e' later (v :: vs) m' (by rw [hnodes]; rfl) (.cons hv husable before)
    · exact hnext (v :: vs) m' (.cons hv husable hgives)

/-- A dictionary agrees if every key and every value that is come to does. -/
theorem withPairs_congr {pairs : Pairs} {nodes : List (Node × Node)}
    {next : Pairs → Eval (Option Value)}
    (hkey : ∀ earlier k v later pairs' m', nodes = earlier ++ (k, v) :: later →
      Files step pairs earlier m pairs' m' → step k m' = step' k m')
    (hvalue : ∀ earlier k v later pairs' m' key h m'', nodes = earlier ++ (k, v) :: later →
      Files step pairs earlier m pairs' m' → step k m' = .ok (some key) m'' →
      ¬isError (some key) → key.hashKey? = some h → step v m'' = step' v m'') :
    withPairs step pairs nodes next m = withPairs step' pairs nodes next m := by
  induction nodes generalizing m pairs with
  | nil => rfl
  | cons pair nodes ih =>
    obtain ⟨k, v⟩ := pair
    refine withValue_congr (hkey [] k v nodes pairs m rfl .nil) fun key m₁ hk husable => ?_
    cases hhash : key.hashKey? with
    | none => rfl
    | some h =>
      refine withValue_congr (hvalue [] k v nodes pairs m key h m₁ rfl .nil hk husable hhash)
        fun value m₂ hv husable' => Eval.bind_congr_ok rfl fun pairs₁ m₃ hinsert => ?_
      have hfiles {earlier pairs₂ m₄} (before : Files step pairs₁ earlier m₃ pairs₂ m₄) :
          Files step pairs ((k, v) :: earlier) m pairs₂ m₄ :=
        .cons hk husable hhash hv husable' hinsert before
      refine ih (fun earlier k' v' later pairs₂ m₄ hnodes before => ?_)
        fun earlier k' v' later pairs₂ m₄ key' h' m₅ hnodes before => ?_
      · exact hkey ((k, v) :: earlier) k' v' later pairs₂ m₄ (by rw [hnodes]; rfl) (hfiles before)
      · exact hvalue ((k, v) :: earlier) k' v' later pairs₂ m₄ key' h' m₅ (by rw [hnodes]; rfl)
          (hfiles before)

/-- **Nothing else is evaluated.** A node gives the same result with another way to evaluate parts,
if that agrees on every activity which the node performs. -/
theorem evaluateWith_congr {run run' : Evaluator} {scope : Nat} {node : Node}
    (h : ∀ pending activity m', Performs run scope node m pending activity m' →
      activity.perform run m' = activity.perform run' m') :
    evaluateWith run node scope m = evaluateWith run' node scope m := by
  cases node with
  | missing | identifier | integer | float | boolean | string | function => rfl
  | program statements =>
    refine evaluateProgram_congr none fun earlier s later m' hnodes before => ?_
    subst hnodes
    exact h _ _ _ (.program before)
  | block _ statements =>
    refine evaluateBlock_congr none fun earlier s later m' hnodes before => ?_
    subst hnodes
    exact h _ _ _ (.inside (.block before))
  | statement => exact h _ _ _ (.inside .content)
  | letBinding =>
    rw [evaluateWith, evaluateWith]
    exact withBound_congr fun hvalue => h _ _ _ (.letBinding hvalue)
  | constBinding =>
    rw [evaluateWith, evaluateWith]
    exact withBound_congr fun hvalue => h _ _ _ (.constBinding hvalue)
  | assignment =>
    rw [evaluateWith, evaluateWith]
    exact withBound_congr fun hvalue => h _ _ _ (.assignment hvalue)
  | returning => exact withValue_congr (h _ _ _ .returning) fun _ _ _ _ => rfl
  | loop _ c b =>
    refine repeatRounds_congr (fun n m₁ hn before => ?_)
      fun n m₁ v m₂ hn before hv husable htrue => ?_
    · exact h _ _ _ (.round before (Nat.add_sub_of_le hn))
    · exact h _ _ _ (.inside (.loop before (Nat.add_sub_of_le hn) hv husable htrue))
  | prefixOp => exact withValue_congr (h _ _ _ .operand) fun _ _ _ _ => rfl
  | infixOp _ _ e₁ e₂ =>
    refine withValue_congr (h _ _ _ .left) fun l m₁ hl husable => ?_
    exact withValue_congr (h _ _ _ (.right hl husable)) fun _ _ _ _ => rfl
  | ifThen _ c b =>
    refine withValue_congr (h _ _ _ .ifThen) fun v m₁ hv husable => ?_
    by_cases htrue : v.truthy
    · rw [if_pos htrue, if_pos htrue]
      exact h _ _ _ (.inside (.ifThen hv husable htrue))
    · rw [if_neg htrue, if_neg htrue]
  | ifElse _ c b₁ b₂ =>
    refine withValue_congr (h _ _ _ .ifElse) fun v m₁ hv husable => ?_
    by_cases htrue : v.truthy
    · rw [if_pos htrue, if_pos htrue]
      exact h _ _ _ (.inside (.ifElse hv husable htrue))
    · rw [if_neg htrue, if_neg htrue]
      exact h _ _ _ (.inside (.otherwise hv husable htrue))
  | call _ f es =>
    refine withValue_congr (h _ _ _ .callee) fun v m₁ hv husable => ?_
    refine withValues_congr (fun earlier e later vs m' hnodes before => ?_) fun vs m' hgives => ?_
    · subst hnodes
      exact h _ _ _ (.argument hv husable before)
    · exact h _ _ _ (.call hv husable hgives)
  | array _ es =>
    refine withValues_congr (fun earlier e later vs m' hnodes before => ?_) fun _ _ _ => rfl
    subst hnodes
    exact h _ _ _ (.element before)
  | index _ e i =>
    refine withValue_congr (h _ _ _ .indexed) fun l m₁ hl husable => ?_
    exact withValue_congr (h _ _ _ (.index hl husable)) fun _ _ _ _ => rfl
  | dictionary _ pairs =>
    refine withPairs_congr (fun earlier k v later pairs' m' hnodes before => ?_)
      fun earlier k v later pairs' m' key hash m'' hnodes before hk husable hhash => ?_
    · subst hnodes
      exact h _ _ _ (.key before)
    · subst hnodes
      exact h _ _ _ (.entry before hk husable hhash)

end

/-! ## Nested activities -/

/-- The activity `activity`, carried out from the machine `m` with the depth `depth`, comes to a
nested one, from the machine `m'` on and with the depth `d`. What is still to be done around it is
listed from the inside out, each with the depth that is left for it. -/
inductive Nested (depth : Nat) (activity : Activity) (m : Machine) :
    List (Nat × Pending) → Nat → Activity → Machine → Prop where
  | self : Nested depth activity m [] depth activity m
  | part (outer : Nested depth activity m around (d + 1) (.node node scope) m₁)
      (inner : Performs (evaluate d) scope node m₁ pending activity' m₂) :
      Nested depth activity m ((d, pending) :: around) d activity' m₂
  | body (outer : Nested depth activity m around d (.call (.function i parameters b s) vs) m₁)
      (bound : bindParameters [] parameters vs = .ok bindings) :
      Nested depth activity m ((d, .body) :: around) d (.node b m₁.scopes.size)
        (m₁.addScope ⟨some s, bindings⟩).2

/-- Takes up what is still to be done around an activity, from the inside out; `runs` evaluates
nodes at each depth. -/
def resumeAround (runs : Nat → Evaluator) :
    List (Nat × Pending) → Option Value → Eval (Option Value)
  | [], result => return result
  | (d, pending) :: around, result => pending.resume (runs d) result >>= resumeAround runs around

/-- **Evaluation is that of the nested activity, and then what is around it is taken up.** -/
theorem perform_of_nested {depth d : Nat} {activity activity' : Activity} {m m' : Machine}
    {around : List (Nat × Pending)} (h : Nested depth activity m around d activity' m') :
    activity.perform (evaluate depth) m =
      (activity'.perform (evaluate d) >>= resumeAround evaluate around) m' := by
  induction h with
  | self => exact congrFun (bind_pure _).symm m
  | part _ inner ih =>
    refine ih.trans ((Eval.bind_eq_bind _ (evaluateWith_of_performs inner)).trans ?_)
    rw [bind_assoc]
    rfl
  | body _ bound ih =>
    simp only [Activity.perform] at ih ⊢
    rw [ih, Eval.bind_eq_bind _ (applyFunction_ok _ bound), bind_assoc]
    rfl

end Monkey
