import Monkey.Evaluation

/-!
# How evaluation comes to a statement

The statements of a function body are nested in blocks, branches and loops. A `Frame` is one such
construct around the statement that is being evaluated, with what the construct has still to do
behind it. `Arrives` says that evaluation comes to a statement, inside which frames, and in which
state of the machine.

`evaluate_of_arrives` cuts evaluation at that point: it is the evaluation of the statement, and then
the frames are resumed one after the other, the innermost first.
-/

namespace Monkey

/-- Whether a result ends the block it arises in. -/
def stops : Option Value → Bool
  | some (.error _) | some (.returned _ _) => true
  | _ => false

/-- Whether a result ends the loop it arises in. -/
def isError : Option Value → Bool
  | some (.error _) => true
  | _ => false

/-- A construct around a statement that is being evaluated. -/
inductive Frame where
  /-- An expression statement, around its expression. -/
  | content
  /-- An `if`, around the branch that was taken. -/
  | branch
  /-- A block, around one of its statements; `later` stand behind it. -/
  | block (later : List Node)
  /-- A loop, around its body; `limit` more rounds are allowed. -/
  | round (condition body : Node) (limit : Nat)

/-- What a construct does with the result of the part it is around. -/
def Frame.resume (step : Node → Eval (Option Value)) : Frame → Option Value → Eval (Option Value)
  | content, result | branch, result => return result
  | block later, result => if stops result then return result else evaluateBlock step result later
  | round condition body limit, result =>
    if isError result then return result
    else repeatRounds (loopRound (step condition) (step body)) limit

/-- The statements are evaluated one after the other, and none of them ends the block. -/
inductive Passes (step : Node → Eval (Option Value)) : List Node → Machine → Machine → Prop where
  | nil : Passes step [] m m
  | cons (first : step s m = .ok result m₁) (goesOn : ¬stops result)
      (more : Passes step ss m₁ m₂) : Passes step (s :: ss) m m₂

/-- So many rounds are made, and none of them ends the loop. -/
inductive Rounds (round : Eval (Option (Option Value))) : Nat → Machine → Machine → Prop where
  | zero : Rounds round 0 m m
  | succ (first : round m = .ok none m₁) (more : Rounds round n m₁ m₂) :
      Rounds round (n + 1) m m₂

/-- Evaluation of a node comes to a part of it, after all that stands before the part. -/
inductive Enters (step : Node → Eval (Option Value)) :
    Node → Machine → Frame → Node → Machine → Prop where
  | content : Enters step (.statement t e) m .content e m
  | ifThen (condition : step c m = .ok (some v) m') (usable : ¬isError (some v))
      (holds : v.truthy) : Enters step (.ifThen t c b) m .branch b m'
  | ifElse (condition : step c m = .ok (some v) m') (usable : ¬isError (some v))
      (holds : v.truthy) : Enters step (.ifElse t c b₁ b₂) m .branch b₁ m'
  | otherwise (condition : step c m = .ok (some v) m') (usable : ¬isError (some v))
      (fails : ¬v.truthy) : Enters step (.ifElse t c b₁ b₂) m .branch b₂ m'
  | block (before : Passes step earlier m m') :
      Enters step (.block t (earlier ++ s :: later)) m (.block later) s m'
  | loop (before : Rounds (loopRound (step c) (step b)) n m m₁)
      (allowed : n + 1 + limit = roundLimit) (condition : step c m₁ = .ok (some v) m')
      (usable : ¬isError (some v)) (holds : v.truthy) :
      Enters step (.loop t c b) m (.round c b limit) b m'

/-- Evaluation of `node` comes to a part inside the frames, the innermost first; `d` is the depth that
is left for the part. -/
inductive Arrives (scope depth : Nat) (node : Node) (m : Machine) :
    List Frame → Nat → Node → Machine → Prop where
  | start : Arrives scope depth node m [] depth node m
  | enter (route : Arrives scope depth node m frames (d + 1) part m₁)
      (inside : Enters (fun part => evaluate d part scope) part m₁ frame part' m₂) :
      Arrives scope depth node m (frame :: frames) d part' m₂

/-- Resumes the frames with the result of the part inside them. -/
def resumeAll (scope : Nat) : Nat → List Frame → Option Value → Eval (Option Value)
  | _, [], result => return result
  | d, frame :: frames, result => do
    resumeAll scope (d + 1) frames (← frame.resume (fun part => evaluate d part scope) result)

/-! ## Cutting evaluation at a part -/

section

variable {step : Node → Eval (Option Value)} {m m' : Machine}

/-- The second part of a step starts where the first one ended. -/
theorem Eval.bind_ok {x : Eval α} {a : α} (f : α → Eval β) (h : x m = .ok a m') :
    (x >>= f) m = f a m' := by
  show EStateM.bind x f m = _
  rw [EStateM.bind, h]

/-- A step in two parts ends if both do. -/
theorem Eval.bind_eq_ok {x : Eval α} {f : α → Eval β} {b : β} (h : (x >>= f) m = .ok b m') :
    ∃ a m₁, x m = .ok a m₁ ∧ f a m₁ = .ok b m' := by
  change EStateM.bind x f m = _ at h
  rw [EStateM.bind] at h
  cases hx : x m with
  | ok a m₁ =>
    rw [hx] at h
    exact ⟨a, m₁, rfl, h⟩
  | error e m₁ =>
    rw [hx] at h
    cases h

theorem Eval.bind_eq_bind {x y : Eval α} (f : α → Eval β) (h : x m = y m') :
    (x >>= f) m = (y >>= f) m' := by
  show EStateM.bind x f m = EStateM.bind y f m'
  rw [EStateM.bind, EStateM.bind, h]

/-- A construct goes on with a value that is no error. -/
theorem withValue_ok {x : Eval (Option Value)} {v : Value} (next : Value → Eval (Option Value))
    (h : x m = .ok (some v) m') (hv : ¬isError (some v)) : withValue x next m = next v m' := by
  unfold withValue
  rw [Eval.bind_ok _ h]
  cases v with
  | error e => exact absurd rfl hv
  | _ => rfl

theorem evaluateBlock_cons (last : Option Value) (s : Node) (later : List Node) :
    evaluateBlock step last (s :: later) = step s >>= (Frame.block later).resume step := by
  unfold evaluateBlock
  congr
  funext result
  cases result with
  | none => rfl
  | some v => cases v <;> rfl

/-- Statements that pass leave the rest of the block to do. -/
theorem evaluateBlock_of_passes {earlier : List Node} (h : Passes step earlier m m') (s : Node)
    (later : List Node) (last : Option Value) :
    evaluateBlock step last (earlier ++ s :: later) m =
      (step s >>= (Frame.block later).resume step) m' := by
  induction h generalizing last with
  | nil => rw [List.nil_append, evaluateBlock_cons]
  | cons first goesOn _ ih =>
    rw [List.cons_append, evaluateBlock_cons, Eval.bind_ok _ first, Frame.resume, if_neg goesOn]
    exact ih _

/-- Rounds that are over leave fewer to do. -/
theorem repeatRounds_of_rounds {round : Eval (Option (Option Value))} {n : Nat}
    (h : Rounds round n m m') (limit : Nat) :
    repeatRounds round (n + limit) m = repeatRounds round limit m' := by
  induction h with
  | zero => rw [Nat.zero_add]
  | succ first _ ih =>
    rw [Nat.add_right_comm, repeatRounds, Eval.bind_ok _ first]
    exact ih

/-- A round of a loop, by whether its results are errors and whether the condition holds. -/
theorem loopRound_eq (condition body : Eval (Option Value)) :
    loopRound condition body = (do
      let c ← condition
      if isError c then return some c
      else if c.any Value.truthy then do
        let result ← body
        if isError result then return some result else return none
      else return some none) := by
  refine bind_congr fun c => ?_
  have hbody : (do
      match ← body with
      | some (.error e) => return some (some (.error e))
      | _ => return none : Eval (Option (Option Value))) = (do
      let result ← body
      if isError result then return some result else return none) := by
    refine bind_congr fun result => ?_
    cases result with
    | none => rfl
    | some v => cases v <;> rfl
  cases c with
  | none => rfl
  | some v =>
    cases v with
    | error e => rfl
    | _ =>
      rw [← hbody]
      rfl

/-- A round with a true condition comes to the body, and to the other rounds behind it. -/
theorem repeatRounds_succ (step : Node → Eval (Option Value)) {c b : Node} {v : Value} (limit : Nat)
    (hcondition : step c m = .ok (some v) m') (hv : ¬isError (some v)) (htrue : v.truthy) :
    repeatRounds (loopRound (step c) (step b)) (limit + 1) m =
      (step b >>= (Frame.round c b limit).resume step) m' := by
  have hround : loopRound (step c) (step b) m = (do
      let result ← step b
      if isError result then return some result else return none : Eval _) m' := by
    rw [loopRound_eq, Eval.bind_ok _ hcondition, if_neg hv, Option.any_some, if_pos htrue]
  rw [repeatRounds, Eval.bind_eq_bind _ hround, bind_assoc]
  refine congrFun (bind_congr fun result => ?_) m'
  rw [Frame.resume]
  split <;> rfl

/-- **A node is the part it comes to, and then what it does with the result.** -/
theorem evaluateWith_of_enters {run : Evaluator} {scope : Nat} {node part : Node} {frame : Frame}
    (h : Enters (fun part => run part scope) node m frame part m') :
    evaluateWith run node scope m =
      (run part scope >>= frame.resume fun part => run part scope) m' := by
  cases h with
  | content => exact congrFun (bind_pure _).symm m
  | ifThen condition usable holds =>
    rw [evaluateWith, withValue_ok _ condition usable, if_pos holds]
    exact congrFun (bind_pure _).symm m'
  | ifElse condition usable holds =>
    rw [evaluateWith, withValue_ok _ condition usable, if_pos holds]
    exact congrFun (bind_pure _).symm m'
  | otherwise condition usable fails =>
    rw [evaluateWith, withValue_ok _ condition usable, if_neg fails]
    exact congrFun (bind_pure _).symm m'
  | block before => exact evaluateBlock_of_passes before _ _ none
  | loop before allowed condition usable holds =>
    rw [evaluateWith, ← allowed, Nat.add_assoc, repeatRounds_of_rounds before, Nat.add_comm 1]
    exact repeatRounds_succ (fun part => run part scope) _ condition usable holds

end

/-- **Evaluation is that of the part it arrives at, and then the frames are resumed.** -/
theorem evaluate_of_arrives {scope depth d : Nat} {node part : Node} {m m' : Machine}
    {frames : List Frame} (h : Arrives scope depth node m frames d part m') :
    evaluate depth node scope m = (evaluate d part scope >>= resumeAll scope d frames) m' := by
  -- the route grows inward: the frame that is entered last is resumed first
  induction h with
  | start => exact congrFun (bind_pure _).symm m
  | enter _ inside ih =>
    refine ih.trans ((Eval.bind_eq_bind _ (evaluateWith_of_enters inside)).trans ?_)
    rw [bind_assoc]
    rfl

/-- A call is the evaluation of the body in the new scope; a wrapper is opened. -/
theorem applyFunction_ok {run : Evaluator} {identity scope : Nat} {parameters : List Name}
    {body : Node} {arguments : List Value} {bindings : List Binding} (m : Machine)
    (hbind : bindParameters [] parameters arguments = .ok bindings) :
    applyFunction run (.function identity parameters body scope) arguments m =
      (run body m.scopes.size >>= fun r => pure (r.map Value.unwrap))
        (m.addScope ⟨some scope, bindings⟩).2 := by
  simp only [applyFunction, hbind]
  rfl

end Monkey
