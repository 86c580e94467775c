import Monkey.Proofs.Alike
import Monkey.Proofs.Parts

/-!
# What constructs pass on

The rules for the parts of evaluation, put together for every kind of node at once. Let `p` be a
property of values that two runs carry along (`Course.Carries`): plain values have it, it lasts, and
operators and built-in functions do not endanger it. Then a node keeps to the course and gives values
with `p`, provided that it does so where it looks up a name, sets a name, makes a function or calls one
(`Course.Supports`, `Tracks.evaluateWith`).

Return wrappers are values on their way out. A node that may give one (`Node.mayReturn`) need not give
a value with `p` then, as long as the wrapper is not kept (`Node.kept`).
-/

namespace Monkey

/-! ## Return wrappers -/

namespace Node

/-- Whether the value of a node can be a return wrapper. -/
def mayReturn : Node → Bool
  | returning .. => true
  | block _ statements => statements.attach.any fun ⟨s, _⟩ => s.mayReturn
  | statement _ e => e.mayReturn
  | ifThen _ _ consequence => consequence.mayReturn
  | ifElse _ _ consequence alternative => consequence.mayReturn || alternative.mayReturn
  | _ => false

/-- The parts whose values are kept: bound to a name, returned, passed to a function, or put into an
array or into a dictionary as a value. -/
def kept : Node → List Node
  | letBinding _ _ e | constBinding _ _ e | assignment _ _ e | returning _ e => [e]
  | call _ _ es | array _ es => es
  | dictionary _ pairs => pairs.map Prod.snd
  | _ => []

theorem mem_kept_value (t : Token) {pair : Node × Node} {pairs : List (Node × Node)}
    (h : pair ∈ pairs) : pair.2 ∈ (dictionary t pairs).kept :=
  List.mem_map_of_mem h

/-- What is kept is the value of a part. -/
theorem mem_parts_of_mem_kept {part node : Node} (h : part ∈ node.kept) : part ∈ node.parts := by
  cases node with
  | call => exact List.mem_cons_of_mem _ h
  | dictionary => exact List.mem_append_right _ h
  | letBinding | constBinding | assignment | returning | array => exact h
  | _ => cases h

end Node

/-- Whether a value is a return wrapper. -/
def Value.isReturned : Value → Bool
  | returned .. => true
  | _ => false

/-- The value of a node: `p` holds of all that it holds, and of the value itself, or else it is a
return wrapper of a node that may return. -/
structure Fits (p : Value → Prop) (may : Bool) (v : Value) : Prop where
  parts : ∀ u ∈ v.parts, u.Every p
  self : p v ∨ may ∧ v.isReturned

namespace Fits

variable {p p' : Value → Prop} {may may' : Bool} {v : Value}

theorem of_every (h : v.Every p) : Fits p may v :=
  ⟨(Value.every_iff.mp h).2, .inl (Value.every_iff.mp h).1⟩

/-- The value of a node may be kept if wrappers may be, or if the node gives none. -/
theorem every (hkept : may → ∀ w : Value, w.isReturned → p w) (h : Fits p may v) : v.Every p := by
  refine Value.every_iff.mpr ⟨?_, h.parts⟩
  rcases h.self with hself | ⟨hmay, hreturned⟩
  · exact hself
  · exact hkept hmay v hreturned

theorem mono (hmay : may → may') (h : Fits p may v) : Fits p may' v :=
  ⟨h.parts, h.self.imp_right fun hself => ⟨hmay hself.1, hself.2⟩⟩

theorem imp (hp : ∀ w, p w → p' w) (h : Fits p may v) : Fits p' may v :=
  ⟨fun u hu w hw => hp w (h.parts u hu w hw), h.self.imp_left (hp v)⟩

/-- An opened wrapper may be kept. -/
theorem unwrap (h : Fits p may v) : v.unwrap.Every p := by
  cases v with
  | returned i u => exact h.parts u List.mem_cons_self
  | _ =>
    refine Value.every_iff.mpr ⟨?_, h.parts⟩
    rcases h.self with hself | ⟨_, hreturned⟩
    · exact hself
    · cases hreturned

end Fits

/-! ## Statements that set a name -/

/-- How a statement sets a name of its scope to the value of an expression. -/
inductive Setting where
  | declare (constant : Bool) (name : String) (value : Node)
  | assign (name : String) (value : Node)

namespace Setting

/-- The name that is set. -/
def name : Setting → String
  | declare _ name _ | assign name _ => name

/-- The expression whose value it is set to. -/
def value : Setting → Node
  | declare _ _ value | assign _ value => value

/-- Sets the name to a value. -/
def apply (scope : Nat) : Setting → Value → Eval (Option Value)
  | declare constant name _, v => declareName scope name constant v
  | assign name _, v => assignName scope name v

end Setting

/-- What a node sets, if it is a statement that sets a name. -/
def Node.setting? : Node → Option Setting
  | letBinding _ x e => some (.declare false x.value e)
  | constBinding _ x e => some (.declare true x.value e)
  | assignment _ x e => some (.assign x.value e)
  | _ => none

/-- A statement that sets a name goes on with the value of its expression. -/
theorem evaluateWith_of_setting? {node : Node} {setting : Setting} (run : Evaluator) (scope : Nat)
    (h : node.setting? = some setting) :
    evaluateWith run node scope =
      withBound (fun part => run part scope) setting.value (setting.apply scope) := by
  cases node with
  | letBinding | constBinding | assignment =>
    cases h
    rfl
  | _ => cases h

/-! ## What a course carries -/

/-- The result of a node, as it is in a machine. -/
abbrev NodeResult (p : Machine → Value → Prop) (may : Bool) (m : Machine) (result : Option Value) :
    Prop :=
  Result (Fits (p m) may) result

/-- Two runs carry a property of values along. -/
structure Course.Carries (W : Course) (p : Machine → Value → Prop) : Prop where
  plain : ∀ m v, v.isPlain → p m v
  lasts : Lasts W.change p
  oblivious : ∀ {α : Type} {x : Eval α} {post : α → Prop} {m m' : Machine}, W.Related m m' →
    Oblivious x → Yields post x → Tracks W (fun _ => post) x m m'

/-- A value that can be a key is plain and holds no other value. -/
theorem Value.every_of_hashKey? {p : Value → Prop} (hplain : ∀ v : Value, v.isPlain → p v)
    {v : Value} {hash : HashKey} (h : v.hashKey? = some hash) : v.Every p := by
  have hv : v.isPlain ∧ v.parts = [] := by
    cases v with
    | array | dict | function | returned | error => cases h
    | _ => exact ⟨rfl, rfl⟩
  exact every_of_parts_eq_nil hplain hv.1 hv.2

section

variable {W : Course} {p : Machine → Value → Prop} {may : Bool} {m m' : Machine}

namespace Course.Carries

theorem lasts_every (hW : W.Carries p) : Lasts W.change fun m => Value.Every (p m) :=
  fun _ _ _ hlater h w hw => hW.lasts hlater (h w hw)

/-- A plain value that holds no other value. -/
theorem fits_atom (hW : W.Carries p) {v : Value} (hv : v.isPlain) (hparts : v.parts = []) :
    Fits (p m) may v :=
  .of_every (Value.every_of_parts_eq_nil (hW.plain m) hv hparts)

end Course.Carries

namespace Tracks

/-- A step that computes a value from values. -/
theorem computed (hW : W.Carries p) (hm : W.Related m m') {x : Eval Value} (hx : Oblivious x)
    (hyields : Yields (Value.OrError (Value.Every (p m))) x) :
    Tracks W (NodeResult p may) (some <$> x) m m' := by
  refine map_some ((hW.oblivious hm hx hyields).mono fun s _ _ hs hv => ?_)
  exact hv.imp_right fun hv => .of_every (hW.lasts_every hs.change hv)

/-- A step that takes an identity for a new value. -/
theorem identified (hW : W.Carries p) (hm : W.Related m m') {make : Nat → Value}
    (h : ∀ i, Fits (p m) may (make i)) :
    Tracks W (NodeResult p may) (do return some (make (← Eval.identity))) m m' := by
  have hyields : Yields (Result (Fits (p m) may)) (do return some (make (← Eval.identity))) :=
    .behind fun i => .pure (.some (h i))
  refine (hW.oblivious hm (Oblivious.identity.bind fun _ => .pure _) hyields).mono ?_
  exact fun s _ _ hs hresult => hresult.mono fun _ => .imp fun _ => hW.lasts hs.change

theorem insertPair (hW : W.Carries p) (hm : W.Related m m') (hash : HashKey)
    {pair : Value × Value} {pairs : Pairs}
    (hpair : pair.1.Every (p m) ∧ pair.2.Every (p m)) (hpairs : pairs.Both (Value.Every (p m))) :
    Tracks W (fun s => Pairs.Both (Value.Every (p s))) (insertPair hash pair pairs) m m' := by
  refine (hW.oblivious hm (.insertPair hash pair pairs) (.insertPair hash hpair hpairs)).mono ?_
  exact fun s _ _ hs h p hp =>
    ⟨hW.lasts_every hs.change (h p hp).1, hW.lasts_every hs.change (h p hp).2⟩

/-- A name is looked up in the scopes, and then among the built-in functions. -/
theorem evaluateName (hW : W.Carries p) (hm : W.Related m m') {name : String} {scope : Nat}
    (hsame : m'.lookup? name scope = m.lookup? name scope)
    (hvalue : ∀ v, m.lookup? name scope = some v → v.Every (p m)) :
    Tracks W (NodeResult p false) (evaluateName name scope) m m' := by
  refine bind_get ?_
  rw [hsame]
  cases hlookup : m.lookup? name scope with
  | some v => exact .ok (.some (.of_every (hvalue v hlookup))) (.refl hm)
  | none =>
    cases Builtin.ofName? name with
    | some b => exact .ok (.some (hW.fits_atom rfl rfl)) (.refl hm)
    | none => exact .ok (.error _) (.refl hm)

/-- A name is declared, or assigned to. -/
theorem set {setting : Setting} {scope : Nat} {v : Value}
    (hdeclare : ∀ constant, W.Reaches m (m.declare scope ⟨setting.name, constant, v⟩)
      (m'.declare scope ⟨setting.name, constant, v⟩))
    (hsame : (m'.assign scope setting.name v).1 = (m.assign scope setting.name v).1)
    (hassign : W.Reaches m (m.assign scope setting.name v).2
      (m'.assign scope setting.name v).2) :
    Tracks W (NodeResult p false) (setting.apply scope v) m m' := by
  cases setting with
  | declare constant name =>
    exact bind_modifyGet rfl (hdeclare constant) (.pure (hdeclare constant).related .none)
  | assign name =>
    refine bind_modifyGet hsame hassign ?_
    cases (m.assign scope name v).1 with
    | done => exact .pure hassign.related .none
    | constant | unknown => exact .pure hassign.related (.error _)

/-- A call evaluates the body of the function in a scope that was added for it. -/
theorem applyFunction {run : Evaluator} {f : Value} {vs : List Value} (hW : W.Carries p)
    (hm : W.Related m m') (hvs : ∀ v ∈ vs, v.Every (p m))
    (hadd : ∀ {i parameters body scope bindings}, f = .function i parameters body scope →
      bindParameters [] parameters vs = .ok bindings →
      m'.scopes.size = m.scopes.size ∧
      W.Reaches m (m.addScope ⟨some scope, bindings⟩).2 (m'.addScope ⟨some scope, bindings⟩).2)
    (hbody : ∀ {i parameters body scope bindings}, f = .function i parameters body scope →
      bindParameters [] parameters vs = .ok bindings →
      Tracks W (NodeResult p body.mayReturn) (run body m.scopes.size)
        (m.addScope ⟨some scope, bindings⟩).2 (m'.addScope ⟨some scope, bindings⟩).2) :
    Tracks W (NodeResult p false) (applyFunction run f vs) m m' := by
  cases f with
  | function i parameters body scope =>
    simp only [Monkey.applyFunction]
    cases hbind : bindParameters [] parameters vs with
    | error e => exact .pure hm (.error e)
    | ok bindings =>
      obtain ⟨hsize, hreaches⟩ := hadd rfl hbind
      refine bind_modifyGet hsize hreaches ((hbody rfl hbind).bind fun result _ _ hs hresult => ?_)
      refine .pure hs.related (hresult.map_unwrap fun _ hv => ?_)
      exact .of_every hv.unwrap
  | builtin b => exact computed hW hm (.call b vs) (.call (hW.plain m) b hvs)
  | _ => exact .pure hm (.error _)

end Tracks

/-! ## Nodes -/

/-- What a node needs in order to keep to a course: its parts do so; a part that may give a return
wrapper is kept only where wrappers may be; names are looked up and set, functions are made and called
as the course wants it. -/
structure Course.Supports (W : Course) (p : Machine → Value → Prop) (run : Evaluator) (scope : Nat)
    (node : Node) (m m' : Machine) : Prop where
  part : ∀ e ∈ node.parts, Onward W (NodeResult p e.mayReturn) (run e scope) m
  kept : ∀ e ∈ node.kept, e.mayReturn → ∀ s v, v.isReturned → p s v
  name : ∀ x, node = .identifier x →
    Tracks W (NodeResult p false) (evaluateName x.value scope) m m'
  set : ∀ setting, node.setting? = some setting → ∀ v s s', W.Reaches m s s' → v.Every (p s) →
    Tracks W (NodeResult p false) (setting.apply scope v) s s'
  function : ∀ t parameters body, node = .function t parameters body →
    ∀ i, p m (.function i parameters body scope)
  call : ∀ f vs s s', W.Reaches m s s' → Fits (p s) true f → (∀ v ∈ vs, v.Every (p s)) →
    Tracks W (NodeResult p false) (applyFunction run f vs) s s'

namespace Course.Supports

variable {run : Evaluator} {scope : Nat} {node e : Node}

/-- The value of a part of which nothing more is known. -/
theorem any (h : W.Supports p run scope node m m') (he : e ∈ node.parts) :
    Onward W (NodeResult p true) (run e scope) m :=
  fun _ _ hs => (h.part e he hs).result_mono fun _ _ => .mono fun _ => rfl

/-- The value of a part that is kept. -/
theorem every (h : W.Supports p run scope node m m') (he : e ∈ node.kept) :
    Onward W (fun s => Result (Value.Every (p s))) (run e scope) m :=
  fun _ _ hs => (h.part e (Node.mem_parts_of_mem_kept he) hs).result_mono
    fun s _ => Fits.every fun hmay => h.kept e he hmay s

/-- The value of a part that becomes the value of the node. -/
theorem ending (h : W.Supports p run scope node m m') (he : e ∈ node.parts)
    (hmay : e.mayReturn → node.mayReturn) :
    Onward W (NodeResult p node.mayReturn) (run e scope) m :=
  fun _ _ hs => (h.part e he hs).result_mono fun _ _ => .mono hmay

end Course.Supports

/-- What gives no return wrapper gives no other value where one may be given. -/
theorem Tracks.allowing {x : Eval (Option Value)} (h : Tracks W (NodeResult p false) x m m') :
    Tracks W (NodeResult p may) x m m' :=
  h.result_mono fun _ _ => .mono fun hmay => by cases hmay

/-- **Every construct passes on what its parts keep to.** -/
theorem Tracks.evaluateWith {run : Evaluator} {scope : Nat} {node : Node} (hW : W.Carries p)
    (hm : W.Related m m') (h : W.Supports p run scope node m m') :
    Tracks W (NodeResult p node.mayReturn) (evaluateWith run node scope) m m' := by
  have hfirst {e : Node} (he : e ∈ node.parts) := h.any he (.refl hm)
  cases node with
  | missing => exact .pure hm .none
  | integer | float | boolean | string => exact .pure hm (.some (hW.fits_atom rfl rfl))
  | program statements =>
    have hopened : Tracks W (fun s => Result (Value.Every (p s))) _ m m' :=
      evaluateProgram hm (fun e he => h.any he) (fun _ _ hv => hv.unwrap) .none
    exact hopened.result_mono fun _ _ => .of_every
  | block t statements =>
    refine evaluateBlock hm (fun e he => h.ending he fun hmay => ?_) .none
    simp only [Node.mayReturn, List.any_eq_true]
    exact ⟨⟨e, he⟩, List.mem_attach _ _, hmay⟩
  | statement t e => exact h.ending List.mem_cons_self (by simp [Node.mayReturn]) (.refl hm)
  | letBinding | constBinding | assignment =>
    rw [Monkey.evaluateWith]
    refine withBound hm (h.every List.mem_cons_self) fun v s s' hs hv => ?_
    exact (h.set _ rfl v s s' hs hv).allowing
  | returning t e =>
    refine (h.every List.mem_cons_self (.refl hm)).withValue fun v s s' hs hv => ?_
    exact identified hW hs.related fun i =>
      ⟨List.forall_mem_singleton.mpr hv, .inr ⟨by rw [Node.mayReturn], rfl⟩⟩
  | loop t c b =>
    exact repeatRounds hm (h.any List.mem_cons_self) (h.any (by simp [Node.parts])) roundLimit
  | identifier x => exact (h.name x rfl).allowing
  | prefixOp t operator e =>
    refine (hfirst List.mem_cons_self).withValue fun v s s' hs _ => ?_
    exact computed hW hs.related (.applyPrefix operator v) (.applyPrefix (hW.plain s) operator v)
  | infixOp t operator e₁ e₂ =>
    refine (hfirst List.mem_cons_self).withValue fun l s s' hs _ => ?_
    refine (h.any (e := e₂) (by simp [Node.parts]) hs).withValue fun r u u' hu _ => ?_
    exact computed hW hu.related (.applyInfix operator l r) (.applyInfix (hW.plain u) operator l r)
  | ifThen t c b =>
    refine (hfirst List.mem_cons_self).withValue fun v s s' hs _ => ?_
    split
    · exact h.ending (by simp [Node.parts]) (by simp [Node.mayReturn]) hs
    · exact .pure hs.related (.some (hW.fits_atom rfl rfl))
  | ifElse t c b₁ b₂ =>
    refine (hfirst List.mem_cons_self).withValue fun v s s' hs _ => ?_
    split
    · exact h.ending (by simp [Node.parts]) (by simp +contextual [Node.mayReturn]) hs
    · exact h.ending (by simp [Node.parts]) (by simp +contextual [Node.mayReturn]) hs
  | function t parameters body =>
    exact identified hW hm fun i => ⟨List.forall_mem_nil _, .inl (h.function t parameters body rfl i)⟩
  | call t f es =>
    refine (hfirst List.mem_cons_self).withValue fun v s s' hs hv => ?_
    refine withValues hs.related hW.lasts_every (fun e he => (h.every he).later hs) ?_
    intro vs u u' hu hvs
    exact (h.call v vs u u' (hs.trans hu) (hv.imp fun _ => hW.lasts hu.change) hvs).allowing
  | array t es =>
    refine withValues hm hW.lasts_every (fun e he => h.every he) fun vs s s' hs hvs => ?_
    exact computed hW hs.related (.array vs) (Yields.array (hW.plain s) hvs).orError
  | index t e i =>
    refine (hfirst List.mem_cons_self).withValue fun l s s' hs hl => ?_
    refine (h.any (e := i) (by simp [Node.parts]) hs).withValue fun r u u' hu _ => ?_
    have hl := (hl.imp fun _ => hW.lasts hu.change).parts
    exact computed hW hu.related (.applyIndex l r) (.applyIndex (hW.plain u) r hl)
  | dictionary t pairs =>
    refine withPairs hm hW.lasts_every (fun s k _ => Value.every_of_hashKey? (hW.plain s))
      (fun hash _ _ s s' hs => insertPair hW hs.related hash)
      (fun pair hpair => h.any (Node.mem_parts_key t hpair))
      (fun pair hpair => h.every (Node.mem_kept_value t hpair)) (fun entries s s' hs hentries => ?_)
      (List.forall_mem_nil _)
    exact computed hW hs.related (.dict entries) (Yields.dict (hW.plain s) hentries).orError

end

end Monkey
