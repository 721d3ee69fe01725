import MeteredScript.Eval.Run
import MeteredScript.Proofs.Spans

namespace MeteredScript

/-! # Comparing runs rule by rule

Statements about all runs are relations between two computations: a run under another budget, with
other collaborators, on a tree with other source ranges, or simply the run itself. A relation that
holds for the few things a rule is made of, and that binding keeps, holds for every rule that is
given related evaluations of what is inside. This is shown here once, a lemma a rule; `Congruence` is
what the relation has to satisfy, and `Simulation` adds what depends on the two environments.
-/

/-! ## What evaluation goes on to -/

/-- The expressions inside a place. -/
def Place.operands : Place → List Expr
  | .ident _ _ => []
  | .member object _ _ => [object]
  | .index object key _ => [object, key]

/-- The expressions inside a called expression that a call evaluates. -/
def Expr.calleeOperands : Expr → List Expr
  | .place p => p.operands
  | _ => []

/-- The expressions that evaluating an expression may go on to evaluate. -/
def Expr.operands : Expr → List Expr
  | .literal _ _ => []
  | .place p => p.operands
  | .array elements _ => elements
  | .object entries _ => entries.map Prod.snd
  | .unary _ operand _ => [operand]
  | .updateBefore _ _ _ target => target.operands
  | .updateAfter _ target _ => target.operands
  | .binary _ left right _ => [left, right]
  | .logical _ left right _ => [left, right]
  | .assign _ target value _ => target.operands ++ [value]
  | .conditional test consequent alternate _ => [test, consequent, alternate]
  | .sequence parts _ => parts
  | .call callee arguments _ => callee.calleeOperands ++ arguments

/-- The expressions of declarations. -/
def declaredOperands (declarators : List Declarator) : List Expr :=
  declarators.flatMap fun d => d.init.toList

/-- The expressions that running a statement may evaluate itself. -/
def Stmt.operands : Stmt → List Expr
  | .declare declarators _ => declaredOperands declarators
  | .ifThen test _ _ => [test]
  | .ifElse test _ _ _ => [test]
  | .forLoop init test update _ _ =>
    (match init with
      | some (.evaluate e) => [e]
      | _ => []) ++ (test.toList ++ update.toList)
  | .whileLoop test _ _ => [test]
  | .returnValue argument _ => argument.toList
  | .expression e _ => [e]
  | .block _ _ | .breakLoop _ | .continueLoop _ | .empty _ => []

/-- The statements that running a statement may go on to run. -/
def Stmt.inner : Stmt → List Stmt
  | .block body _ => body
  | .ifThen _ consequent _ => [consequent]
  | .ifElse _ consequent alternate _ => [consequent, alternate]
  | .forLoop init _ _ body _ =>
    (match init with
      | some (.declare declarators span) => [.declare declarators span]
      | _ => []) ++ [body]
  | .whileLoop _ body _ => [body]
  | .declare _ _ | .breakLoop _ | .continueLoop _ | .returnValue _ _ | .empty _
  | .expression _ _ => []

/-- The variable that assigning to a place assigns to. -/
def Place.name? : Place → Option String
  | .ident name _ => some name
  | .member _ _ _ | .index _ _ _ => none

/-- The variable that evaluating an expression assigns to itself. -/
def Expr.assignedName? : Expr → Option String
  | .updateBefore _ _ _ target => target.name?
  | .updateAfter _ target _ => target.name?
  | .assign _ target _ _ => target.name?
  | _ => none

/-- The variables that running a statement declares itself. -/
def Stmt.declarators : Stmt → List Declarator
  | .declare declarators _ => declarators
  | _ => []

/-- The initial values of declared variables are evaluated. -/
theorem Stmt.init_mem_operands (s : Stmt) {d : Declarator} (hd : d ∈ s.declarators) {c : Expr}
    (hc : c ∈ d.init.toList) : c ∈ s.operands := by
  cases s with
  | declare declarators span => exact List.mem_flatMap.mpr ⟨d, hd, hc⟩
  | _ => cases hd

/-- The expressions that stand in for missing arguments of a function. -/
def Function.fallbacks (f : Function) : List Expr := f.params.flatMap fun p => p.fallback.toList

/-- Whether an error is of a kind that evaluation itself may fail with. -/
def Error.isRuntime : Error → Bool
  | .lex _ _ | .parse _ _ => false
  | .range _ _ | .reference _ _ | .exhausted _ | .collaborator _ => true

def Collaborators.MayAnswer (collaborators : Collaborators) (e : Error) : Prop :=
  (∃ execute id args, collaborators.tokenExecutor = some execute ∧ execute id args = .error e) ∨
    ∃ call address signature returnType args, collaborators.contractCaller = some call ∧
      call address signature returnType args = .error e

namespace Run

/-! ## Relations between computations -/

/-- The steps on frames and heap that rules are made of, if no other variables than `names` are bound.
None of them fails or is paid for. -/
inductive Primitive (names : String → Prop) : {α : Type} → Run α → Prop
  | lookup (name : String) : Primitive names (lookup name)
  | isLocal (name : String) : Primitive names (isLocal name)
  | isGlobal (name : String) : Primitive names (isGlobal name)
  | define (name : String) (value : Value) : names name → Primitive names (define name value)
  | setVariable (name : String) (value : Value) : names name → Primitive names (setVariable name value)
  | display (v : Value) : Primitive names (display v)
  | arrayLength (handle : Nat) : Primitive names (arrayLength handle)
  | element (handle index : Nat) : Primitive names (element handle index)
  | property? (handle : Nat) (key : String) : Primitive names (property? handle key)
  | exportDatum? (v : Value) : Primitive names (exportDatum? v)
  | comparison (op : Comparison) (left right : Value) : Primitive names (comparison op left right)
  | addArray (elements : List Value) : Primitive names (addArray elements)
  | addObject (entries : List (String × Value)) : Primitive names (addObject entries)
  | addDatum (d : Datum) : Primitive names (addDatum d)
  | setElement (handle index : Nat) (value : Value) : Primitive names (setElement handle index value)
  | appendElements (handle : Nat) (values : List Value) :
      Primitive names (appendElements handle values)
  | setProperty (handle : Nat) (key : String) (value : Value) :
      Primitive names (setProperty handle key value)

/-- The state a computation stops in. -/
def final {α : Type} : EStateM.Result Halt State α → State
  | .ok _ s => s
  | .error _ s => s

variable {α : Type} {x : Run α} {s : State}

theorem bind_of_ok {β : Type} {f : α → Run β} {t : State} {a : α} (hx : x s = .ok a t) :
    (x >>= f) s = f a t := by
  show EStateM.bind x f s = f a t
  rw [EStateM.bind, hx]

theorem bind_of_error {β : Type} {f : α → Run β} {t : State} {halt : Halt}
    (hx : x s = .error halt t) : (x >>= f) s = .error halt t := by
  show EStateM.bind x f s = .error halt t
  rw [EStateM.bind, hx]

theorem charge_of_le {units : Nat} (hle : saturate (s.meter.used + units) ≤ s.meter.limit) :
    charge units s = .ok () { s with meter := s.meter.charge units } := by
  unfold charge
  dsimp only
  rw [if_neg]
  rw [Meter.isExhausted_charge]
  exact Nat.not_lt.mpr hle

/-- A charge above the limit is counted and fails. -/
theorem charge_of_lt {units : Nat} (hlt : s.meter.limit < saturate (s.meter.used + units)) :
    charge units s =
      .error (.failed (.exhausted .budget)) { s with meter := s.meter.charge units } := by
  unfold charge
  dsimp only
  rw [if_pos]
  rw [Meter.isExhausted_charge]
  exact hlt

theorem modifyGet_apply (f : State → α × State) (s : State) :
    (modifyGet f : Run α) s = .ok (f s).1 (f s).2 :=
  rfl

/-- A computation that succeeds, reads nothing but frames and heap, and changes nothing else. -/
def IsMemoryStep {α : Type} (x : Run α) : Prop :=
  ∃ f : Heap → Frames → α × Heap × Frames, ∀ s : State,
    x s = .ok (f s.heap s.frames).1
      ⟨(f s.heap s.frames).2.1, (f s.heap s.frames).2.2, s.meter, s.entries⟩

/-- A primitive changes heap and frames only, and always has a result. -/
theorem Primitive.isMemoryStep {names : String → Prop} (hx : Primitive names x) :
    IsMemoryStep x := by
  cases hx with
  | lookup name => exact ⟨fun heap frames => (frames.get? name, heap, frames), fun _ => rfl⟩
  | isLocal name => exact ⟨fun heap frames => (frames.isLocal name, heap, frames), fun _ => rfl⟩
  | isGlobal name => exact ⟨fun heap frames => (frames.isGlobal name, heap, frames), fun _ => rfl⟩
  | define name value _ => exact ⟨fun heap frames => ((), heap, frames.define name value), fun _ => rfl⟩
  | setVariable name value _ =>
    refine ⟨fun heap frames =>
      ((frames.set? name value).isSome, heap, (frames.set? name value).getD frames), fun s => ?_⟩
    unfold Run.setVariable
    rw [modifyGet_apply]
    dsimp only
    -- a name that is not bound leaves the frames as they are
    cases s.frames.set? name value with
    | some frames => rfl
    | none => rfl
  | display v => exact ⟨fun heap frames => (heap.display v, heap, frames), fun _ => rfl⟩
  | arrayLength handle =>
    exact ⟨fun heap frames => ((heap.elements handle).size, heap, frames), fun _ => rfl⟩
  | element handle index =>
    exact ⟨fun heap frames => ((heap.elements handle)[index]?.getD .undefined, heap, frames),
      fun _ => rfl⟩
  | property? handle key =>
    exact ⟨fun heap frames => (heap.property? handle key, heap, frames), fun _ => rfl⟩
  | exportDatum? v => exact ⟨fun heap frames => (heap.exportDatum? v, heap, frames), fun _ => rfl⟩
  | comparison op left right =>
    exact ⟨fun heap frames => (Value.satisfies heap op left right, heap, frames), fun _ => rfl⟩
  | addArray elements =>
    exact ⟨fun heap frames => ((heap.addArray elements).2, (heap.addArray elements).1, frames),
      fun _ => rfl⟩
  | addObject entries =>
    exact ⟨fun heap frames => ((heap.addObject entries).2, (heap.addObject entries).1, frames),
      fun _ => rfl⟩
  | addDatum d =>
    exact ⟨fun heap frames => ((heap.importDatum d).2, (heap.importDatum d).1, frames),
      fun _ => rfl⟩
  | setElement handle index value =>
    exact ⟨fun heap frames => ((), heap.setElement handle index value, frames), fun _ => rfl⟩
  | appendElements handle values =>
    exact ⟨fun heap frames => ((), heap.appendElements handle values, frames), fun _ => rfl⟩
  | setProperty handle key value =>
    exact ⟨fun heap frames => ((), heap.setProperty handle key value, frames), fun _ => rfl⟩

theorem isMemoryStep_defineGlobal (name : String) (value : Value) :
    IsMemoryStep (defineGlobal name value) :=
  ⟨fun heap frames => ((), heap, frames.defineGlobal name value), fun _ => rfl⟩

/-- A relation between a computation and one on a tree whose source ranges are changed by `σ`, kept
by everything that rules are made of, if no other variables than `names` are bound. -/
structure CongruenceOn (σ : Span → Span) (names : String → Prop)
    (R : ∀ {α : Type}, Run α → Run α → Prop) : Prop where
  pure {α : Type} (a : α) : R (Pure.pure a) (Pure.pure a)
  bind {α β : Type} {x y : Run α} {f g : α → Run β} :
    R x y → (∀ a, R (f a) (g a)) → R (x >>= f) (y >>= g)
  fail {α : Type} (e : Error) : e.isRuntime = true →
    R (Run.fail e : Run α) (Run.fail (e.mapSpan σ))
  crash {α : Type} (c : Crash) : R (Run.crash c : Run α) (Run.crash c)
  charge (units : Nat) : R (Run.charge units) (Run.charge units)
  enter : R Run.enter Run.enter
  primitive {α : Type} {x : Run α} : Primitive names x → R x x

/-- A relation that is kept whatever variables are bound. -/
abbrev Congruence (σ : Span → Span) (R : ∀ {α : Type}, Run α → Run α → Prop) : Prop :=
  CongruenceOn σ (fun _ => True) R

namespace CongruenceOn

variable {σ : Span → Span} {names : String → Prop} {R : ∀ {α : Type}, Run α → Run α → Prop}
  (h : CongruenceOn σ names R)
include h

variable {β : Type}

theorem map {α : Type} {x y : Run α} (hxy : R x y) (f : α → β) :
    R (do return f (← x)) (do return f (← y)) :=
  h.bind hxy fun a => h.pure (f a)

theorem orCrash {α : Type} (x : Except Crash α) : R (Run.orCrash x) (Run.orCrash x) := by
  cases x with
  | ok a => exact h.pure a
  | error c => exact h.crash c

/-- Lists are evaluated in related ways if their members are, one after the other. -/
theorem mapM_map {α γ : Type} (t : α → γ) {f : α → Run β} {g : γ → Run β} (l : List α)
    (hl : ∀ a ∈ l, R (f a) (g (t a))) : R (l.mapM f) ((l.map t).mapM g) := by
  induction l with
  | nil => exact h.pure []
  | cons a l ih =>
    rw [List.map_cons, List.mapM_cons, List.mapM_cons]
    refine h.bind (hl a List.mem_cons_self) fun b => ?_
    exact h.bind (ih fun a' ha' => hl a' (List.mem_cons_of_mem a ha')) fun bs => h.pure (b :: bs)

theorem mapM {α : Type} {f g : α → Run β} (l : List α) (hl : ∀ a, R (f a) (g a)) :
    R (l.mapM f) (l.mapM g) := by
  have hmap := h.mapM_map id l fun a _ => hl a
  rwa [List.map_id] at hmap

/-! ## Data and members -/

/-- Copying a value out may fail, at the range of what asked for it. -/
theorem exportDatum (v : Value) (span : Span) :
    R (Run.exportDatum v span) (Run.exportDatum v (σ span)) := by
  refine h.bind (h.primitive (.exportDatum? v)) fun outcome => ?_
  cases outcome with
  | ok d => exact h.pure d
  | error fault => exact h.fail (.range fault span) rfl

theorem importDatum (d : Datum) : R (Run.importDatum d) (Run.importDatum d) :=
  h.bind (h.charge (1 + d.size)) fun _ => h.primitive (.addDatum d)

/-- An index that is out of range is an error at the range of the member. -/
theorem arrayIndex (key : Value) (length : Nat) (span : Span) :
    R (Run.arrayIndex key length span) (Run.arrayIndex key length (σ span)) := by
  unfold Run.arrayIndex
  refine h.bind (h.orCrash (indexNumber key)) fun number => ?_
  cases number with
  | none =>
    exact h.bind (h.primitive (.display key)) fun shown => h.fail (.range (.index shown length) span) rfl
  | some n =>
    dsimp only
    split
    · exact h.pure n.trunc.toNat
    · exact h.fail (.range (.index n.text length) span) rfl

theorem getMember (object key : Value) (span : Span) :
    R (Run.getMember object key span) (Run.getMember object key (σ span)) := by
  unfold Run.getMember
  cases object with
  | array handle =>
    refine h.bind (h.primitive (.arrayLength handle)) fun length => ?_
    split
    · exact h.pure _
    · exact h.bind (h.arrayIndex key length span) fun i => h.primitive (.element handle i)
  | object handle =>
    refine h.bind (h.primitive (.display key)) fun text => ?_
    exact h.map (h.primitive (.property? handle text)) _
  | _ => exact h.pure _

/-- A new entry is paid for alike. -/
theorem chargeEntry (old : Option Value) : R (Run.chargeEntry old) (Run.chargeEntry old) := by
  cases old with
  | none => exact h.charge 1
  | some _ => exact h.pure ()

theorem setMember (object key value : Value) (span : Span) :
    R (Run.setMember object key value span) (Run.setMember object key value (σ span)) := by
  unfold Run.setMember
  cases object with
  | array handle =>
    refine h.bind (h.primitive (.arrayLength handle)) fun length => ?_
    exact h.bind (h.arrayIndex key length span) fun i => h.primitive (.setElement handle i value)
  | object handle =>
    refine h.bind (h.primitive (.display key)) fun text => ?_
    refine h.bind (h.primitive (.property? handle text)) fun old => ?_
    exact h.bind (h.chargeEntry old) fun _ => h.primitive (.setProperty handle text value)
  | _ => exact h.pure ()

/-! ## Operators -/

/-- An operator on numbers is paid for by its operands alone. -/
theorem numeric (price : Decimal → Decimal → Nat) (f : Decimal → Decimal → Option Decimal)
    (left right : Value) : R (Run.numeric price f left right) (Run.numeric price f left right) := by
  refine h.bind (h.orCrash (left.toNumbers right)) fun numbers => ?_
  cases numbers with
  | none => exact h.pure _
  | some numbers => exact h.bind (h.charge (price numbers.1 numbers.2)) fun _ => h.pure _

theorem powerDigit (count : Nat) (base acc : Decimal) :
    R (Decimal.powerDigit Run.charge count base acc)
      (Decimal.powerDigit Run.charge count base acc) := by
  unfold Decimal.powerDigit
  split
  · exact h.bind (h.charge _) fun _ => h.pure _
  · exact h.pure acc

/-- Powers are paid for while they are computed, a multiplication at a time. -/
theorem powerLoop (count : Nat) (base acc : Decimal) :
    R (Decimal.powerLoop Run.charge count base acc) (Decimal.powerLoop Run.charge count base acc) := by
  induction count using Nat.strongRecOn generalizing base acc with
  | _ count ih =>
    unfold Decimal.powerLoop
    split
    · exact h.pure acc
    · refine h.bind (h.powerDigit count base acc) fun acc' => ?_
      -- the base is squared, and paid for, only if a digit of the exponent is left
      split
      · exact h.pure acc'
      · exact h.bind (h.charge _) fun _ => ih (count / 2) (by omega) _ _

theorem power (base exponent : Decimal) :
    R (Decimal.power Run.charge base exponent) (Decimal.power Run.charge base exponent) := by
  unfold Decimal.power
  split
  · exact h.pure none
  · dsimp only
    split
    · exact h.pure none
    · refine h.bind (h.powerLoop _ base .one) fun acc => ?_
      split
      · exact h.bind (h.charge _) fun _ => h.pure _
      · exact h.pure _

/-- A power reads both operands as numbers first. -/
theorem exponentiate (left right : Value) :
    R (Run.exponentiate left right) (Run.exponentiate left right) := by
  refine h.bind (h.orCrash (left.toNumbers right)) fun numbers => ?_
  cases numbers with
  | none => exact h.pure _
  | some numbers => exact h.map (h.power numbers.1 numbers.2) _

/-- Sums join texts, which is the one place where the bound on strings is looked at. -/
theorem arith {bound bound' : Nat}
    (hconcat : ∀ left right, R (Run.concat bound left right) (Run.concat bound' left right))
    (op : ArithOp) (left right : Value) :
    R (Run.arith bound op left right) (Run.arith bound' op left right) := by
  cases op with
  | add =>
    unfold Run.arith Run.add
    dsimp only
    split
    · exact h.pure _
    · split
      · exact hconcat left right
      · exact h.numeric _ _ left right
  | sub | mul | div | rem => exact h.numeric _ _ left right
  | exp => exact h.exponentiate left right
  | bitAnd | bitOr | bitXor | shl | shr | ushr => exact h.orCrash _

theorem satisfies (op : Comparison) (left right : Value) :
    R (Run.satisfies op left right) (Run.satisfies op left right) :=
  h.bind (h.primitive (.comparison op left right)) fun answer => h.orCrash answer

/-- Of all binary operators only joining texts depends on the bound. -/
theorem binary {bound bound' : Nat}
    (hconcat : ∀ left right, R (Run.concat bound left right) (Run.concat bound' left right))
    (op : BinaryOp) (left right : Value) :
    R (Run.binary bound op left right) (Run.binary bound' op left right) := by
  cases op with
  | arith op => exact h.arith hconcat op left right
  | compare op => exact h.map (h.satisfies op left right) _

/-! ## Locations -/

/-- A name that is not bound is an error at its own range. -/
theorem readName (name : String) (span : Span) :
    R (Run.readName name span) (Run.readName name (σ span)) := by
  refine h.bind (h.primitive (.lookup name)) fun value => ?_
  cases value with
  | some v => exact h.pure v
  | none => exact h.fail (.reference (.undefined name) span) rfl

theorem readLocation (location : Location) (span : Span) :
    R (Run.readLocation location span) (Run.readLocation location (σ span)) := by
  cases location with
  | name name => exact h.readName name span
  | member object key => exact h.getMember object key span

/-- Writing sets a name, which has to be one that the relation allows, or a member. -/
theorem writeLocation (location : Location) (value : Value) (span : Span)
    (hname : ∀ name, location = .name name → names name) :
    R (Run.writeLocation location value span) (Run.writeLocation location value (σ span)) := by
  cases location with
  | name name =>
    refine h.bind (h.primitive (.setVariable name value (hname name rfl))) fun done => ?_
    split
    · exact h.pure ()
    · refine h.bind (h.primitive (.isGlobal name)) fun global => ?_
      split
      · exact h.fail (.reference (.readOnly name) span) rfl
      · exact h.fail (.reference (.undefined name) span) rfl
  | member object key => exact h.setMember object key value span

theorem chargeStep (old : Option Decimal) : R (Run.chargeStep old) (Run.chargeStep old) := by
  cases old with
  | some n => exact h.charge n.words
  | none => exact h.pure ()

/-- A step reads, pays and writes. -/
theorem stepLocation (op : UpdateOp) (location : Location) (span : Span)
    (hname : ∀ name, location = .name name → names name) :
    R (Run.stepLocation op location span) (Run.stepLocation op location (σ span)) := by
  refine h.bind (h.readLocation location span) fun v => ?_
  refine h.bind (h.orCrash (stepNumber v)) fun old => ?_
  refine h.bind (h.chargeStep old) fun _ => ?_
  exact h.bind (h.writeLocation location _ span hname) fun _ => h.pure _

/-- A method that does not exist is an error at the range of the call. -/
theorem callMethod (receiver : Value) (method : String) (args : List Value) (span : Span) :
    R (Run.callMethod receiver method args span) (Run.callMethod receiver method args (σ span)) := by
  unfold Run.callMethod
  split
  · rename_i handle
    refine h.bind (h.charge args.length) fun _ => ?_
    refine h.bind (h.primitive (.appendElements handle args)) fun _ => ?_
    exact h.map (h.primitive (.arrayLength handle)) _
  · exact h.fail (.reference (.undefined method) span) rfl

end CongruenceOn

/-! ## Rules -/

/-- A congruence between runs in two environments, which differ at most in source ranges, in what
happens when texts are joined, and in what collaborators do. -/
structure Correspondence (σ : Span → Span) (names : String → Prop) (env env' : Env)
    (R : ∀ {α : Type}, Run α → Run α → Prop) : Prop extends CongruenceOn σ names R where
  functions (name : String) :
    env'.function? name = (env.function? name).map (Function.mapSpans σ)
  concat (left right : Value) :
    R (Run.concat env.maxStringLength left right) (Run.concat env'.maxStringLength left right)

/-- A correspondence in which collaborators do the same, too. -/
structure Simulation (σ : Span → Span) (env env' : Env) (R : ∀ {α : Type}, Run α → Run α → Prop) :
    Prop extends Correspondence σ (fun _ => True) env env' R where
  builtin (b : Builtin) (args : List Value) (span : Span) :
    R (callBuiltin env.collaborators b args span) (callBuiltin env'.collaborators b args (σ span))

namespace Correspondence

variable {σ : Span → Span} {names : String → Prop} {env env' : Env}
  {R : ∀ {α : Type}, Run α → Run α → Prop} (h : Correspondence σ names env env' R)
  {sub sub' : Evaluators}
include h

/-! ### Places -/

/-- What follows behind the evaluation of a place may rely on it that only a variable is located as
one. -/
theorem bind_locate {α : Type} {k k' : Location → Run α} (p : Place)
    (hp : ∀ c ∈ p.operands, R (sub.eval c) (sub'.eval (c.mapSpans σ)))
    (hk : ∀ location, (∀ name, location = .name name → p.name? = some name) →
      R (k location) (k' location)) :
    R (Run.locate sub p >>= k) (Run.locate sub' (p.mapSpans σ) >>= k') := by
  cases p with
  | ident name span =>
    refine hk (.name name) ?_
    rintro _ ⟨⟩
    rfl
  | member object name span =>
    simp only [Run.locate, Place.mapSpans, bind_assoc, pure_bind]
    refine h.bind (hp object (by simp [Place.operands])) fun v => hk (.member v (.string name)) ?_
    rintro _ ⟨⟩
  | index object key span =>
    simp only [Run.locate, Place.mapSpans, bind_assoc, pure_bind]
    refine h.bind (hp object (by simp [Place.operands])) fun v => ?_
    refine h.bind (hp key (by simp [Place.operands])) fun k => hk (.member v k) ?_
    rintro _ ⟨⟩

theorem readPlace (p : Place)
    (hp : ∀ c ∈ p.operands, R (sub.eval c) (sub'.eval (c.mapSpans σ))) :
    R (Run.readPlace sub p) (Run.readPlace sub' (p.mapSpans σ)) := by
  refine h.bind_locate p hp fun location _ => ?_
  rw [Place.span_mapSpans]
  exact h.readLocation location p.span

/-- The value that is assigned is evaluated once, behind what a compound operator reads. -/
theorem assigned (op : AssignOp) (location : Location) (value : Expr) (span : Span)
    (hv : R (sub.eval value) (sub'.eval (value.mapSpans σ))) :
    R (Run.assigned env sub op location value span)
      (Run.assigned env' sub' op location (value.mapSpans σ) (σ span)) := by
  cases op with
  | plain => exact hv
  | compound op =>
    refine h.bind (h.readLocation location span) fun old => ?_
    exact h.bind hv fun right => h.arith h.concat op old right

/-- An assignment evaluates the place, then the value, and then writes. -/
theorem assign (op : AssignOp) (target : Place) (value : Expr) (span : Span)
    (hp : ∀ c ∈ target.operands, R (sub.eval c) (sub'.eval (c.mapSpans σ)))
    (hname : ∀ name ∈ target.name?, names name)
    (hv : R (sub.eval value) (sub'.eval (value.mapSpans σ))) :
    R (Run.assign env sub op target value span)
      (Run.assign env' sub' op (target.mapSpans σ) (value.mapSpans σ) (σ span)) := by
  refine h.bind_locate target hp fun location hlocated => ?_
  refine h.bind (h.assigned op location value span hv) fun result => ?_
  have hwrite := h.writeLocation location result span fun name hn => hname name (hlocated name hn)
  exact h.bind hwrite fun _ => h.pure result

/-- Steps in front of a place, with whatever follows them; the name of the place is still known
there. -/
theorem bind_stepBefore {α : Type} {k k' : Location × Value → Run α} (op : UpdateOp) (span : Span)
    (target : Place) (inner : List (UpdateOp × Span))
    (hp : ∀ c ∈ target.operands, R (sub.eval c) (sub'.eval (c.mapSpans σ)))
    (hname : ∀ name ∈ target.name?, names name)
    (hk : ∀ stepped, (∀ name, stepped.1 = .name name → target.name? = some name) →
      R (k stepped) (k' stepped)) :
    R (Run.stepBefore sub op span target inner >>= k)
      (Run.stepBefore sub' op (σ span) (target.mapSpans σ) (inner.map (Prod.map id σ)) >>= k') := by
  -- the steps behind the first one are stepped before it
  induction inner generalizing op span k k' with
  | nil =>
    simp only [Run.stepBefore, List.map_nil, bind_assoc, pure_bind]
    refine h.bind_locate target hp fun location hlocated => ?_
    have hstep := h.stepLocation op location span fun name hn => hname name (hlocated name hn)
    exact h.bind hstep fun stepped => hk (location, stepped.2) hlocated
  | cons step inner ih =>
    simp only [Run.stepBefore, List.map_cons, bind_assoc, pure_bind]
    -- a step inside another one is entered like an expression of its own
    refine h.bind h.enter fun _ => ih step.1 step.2 fun stepped hlocated => ?_
    have hstep := h.stepLocation op stepped.1 span fun name hn => hname name (hlocated name hn)
    exact h.bind hstep fun result => hk (stepped.1, result.2) hlocated

theorem stepAfter (op : UpdateOp) (target : Place) (span : Span)
    (hp : ∀ c ∈ target.operands, R (sub.eval c) (sub'.eval (c.mapSpans σ)))
    (hname : ∀ name ∈ target.name?, names name) :
    R (Run.stepAfter sub op target span) (Run.stepAfter sub' op (target.mapSpans σ) (σ span)) := by
  refine h.bind_locate target hp fun location hlocated => ?_
  exact h.map (h.stepLocation op location span fun name hn => hname name (hlocated name hn)) _

/-! ### Calls -/

theorem evalAll (es : List Expr) (hes : ∀ c ∈ es, R (sub.eval c) (sub'.eval (c.mapSpans σ))) :
    R (Run.evalAll sub es) (Run.evalAll sub' (es.map (Expr.mapSpans σ))) :=
  h.mapM_map _ es hes

/-- A name calls a function of the program, or else a builtin. -/
theorem callName (name : String) (args : List Value) (span : Span)
    (hcall : ∀ f, env.function? name = some f → R (sub.call f args) (sub'.call (f.mapSpans σ) args))
    (hbuiltin : ∀ b, env.function? name = none → Builtin.ofName? name = some b →
      R (callBuiltin env.collaborators b args span) (callBuiltin env'.collaborators b args (σ span))) :
    R (Run.callName env sub name args span) (Run.callName env' sub' name args (σ span)) := by
  unfold Run.callName
  rw [h.functions name]
  cases hf : env.function? name with
  | some f => exact hcall f hf
  | none =>
    dsimp only [Option.map_none]
    cases hb : Builtin.ofName? name with
    | some b => exact hbuiltin b hf hb
    | none => exact h.fail (.reference (.undefined name) span) rfl

/-- A call evaluates the object of a method, and then the arguments. -/
theorem evalCall (callee : Expr) (arguments : List Expr) (span : Span)
    (hparts : ∀ c ∈ callee.calleeOperands ++ arguments, R (sub.eval c) (sub'.eval (c.mapSpans σ)))
    (hnamed : ∀ name range args, callee = .place (.ident name range) →
      R (Run.callName env sub name args span) (Run.callName env' sub' name args (σ span))) :
    R (Run.evalCall env sub callee arguments span)
      (Run.evalCall env' sub' (callee.mapSpans σ) (arguments.map (Expr.mapSpans σ)) (σ span)) := by
  have hargs := h.evalAll arguments fun c hc => hparts c (List.mem_append_right _ hc)
  -- only a name or a member is called
  cases callee with
  | place p =>
    cases p with
    | ident name range => exact h.bind hargs fun args => hnamed name range args rfl
    | member object method _ =>
      refine h.bind (hparts object (by simp [Expr.calleeOperands, Place.operands])) fun receiver => ?_
      exact h.bind hargs fun args => h.callMethod receiver method args span
    | index object key _ =>
      refine h.bind (hparts object (by simp [Expr.calleeOperands, Place.operands])) fun receiver => ?_
      refine h.bind (hparts key (by simp [Expr.calleeOperands, Place.operands])) fun k => ?_
      refine h.bind (h.primitive (.display k)) fun method => ?_
      exact h.bind hargs fun args => h.callMethod receiver method args span
  | _ =>
    -- what is no place cannot be called, and its arguments are not evaluated
    exact h.fail (.reference (.undefined "<callee expression>") span) rfl

/-- A fallback is evaluated only where there is no argument. -/
theorem fallback (p : Param)
    (hp : ∀ c ∈ p.fallback.toList, R (sub.eval c) (sub'.eval (c.mapSpans σ))) :
    R (Run.fallback sub p) (Run.fallback sub' (p.mapSpans σ)) := by
  unfold Run.fallback Param.mapSpans
  cases hf : p.fallback with
  | some e => exact hp e (by simp [hf])
  | none => exact h.pure _

/-- Parameters are bound from left to right. -/
theorem bindParams (params : List Param) (args : List Value)
    (hp : ∀ p ∈ params, ∀ c ∈ p.fallback.toList, R (sub.eval c) (sub'.eval (c.mapSpans σ)))
    (hnames : ∀ p ∈ params, names p.name) :
    R (Run.bindParams sub params args)
      (Run.bindParams sub' (params.map (Param.mapSpans σ)) args) := by
  -- a fallback may read the parameters in front of it, so the order matters
  induction params generalizing args with
  | nil => exact h.pure ()
  | cons p params ih =>
    have hrest := fun args => ih args (fun q hq => hp q (List.mem_cons_of_mem p hq))
      fun q hq => hnames q (List.mem_cons_of_mem p hq)
    have hname := hnames p List.mem_cons_self
    cases args with
    | cons arg args =>
      exact h.bind (h.primitive (.define p.name arg hname)) fun _ => hrest args
    | nil =>
      refine h.bind (h.fallback p (hp p List.mem_cons_self)) fun value => ?_
      exact h.bind (h.primitive (.define p.name value hname)) fun _ => hrest []

/-- A call binds the parameters and runs the body. -/
theorem callBody (f : Function) (args : List Value)
    (hf : ∀ c ∈ f.fallbacks, R (sub.eval c) (sub'.eval (c.mapSpans σ)))
    (hnames : ∀ p ∈ f.params, names p.name)
    (hbody : R (sub.exec (.block f.body f.bodySpan))
      (sub'.exec (Stmt.mapSpans σ (.block f.body f.bodySpan)))) :
    R (Run.callBody sub f args) (Run.callBody sub' (f.mapSpans σ) args) := by
  have hparams := h.bindParams f.params args
    (fun p hp c hc => hf c (List.mem_flatMap.mpr ⟨p, hp, hc⟩)) hnames
  refine h.bind hparams fun _ => ?_
  rw [Stmt.mapSpans, mapSpansStmts_eq_map] at hbody
  exact h.map hbody _

/-! ### Expressions -/

/-- The operand of `typeof` is not evaluated if it is a name that is not bound. -/
theorem evalTypeof (operand : Expr) (ho : R (sub.eval operand) (sub'.eval (operand.mapSpans σ))) :
    R (Run.evalTypeof sub operand) (Run.evalTypeof sub' (operand.mapSpans σ)) := by
  cases operand with
  | place p =>
    cases p with
    | ident name span =>
      -- a name that stands for nothing is not evaluated, so that it does not fail
      refine h.bind (h.primitive (.lookup name)) fun value => ?_
      cases value with
      | some _ => exact h.bind ho fun v => h.orCrash (v.unary .typeof)
      | none => exact h.pure _
    | _ => exact h.bind ho fun v => h.orCrash (v.unary .typeof)
  | _ => exact h.bind ho fun v => h.orCrash (v.unary .typeof)

/-- The second operand is evaluated only if the first does not decide. -/
theorem evalLogical (op : LogicalOp) (left right : Expr)
    (hl : R (sub.eval left) (sub'.eval (left.mapSpans σ)))
    (hr : R (sub.eval right) (sub'.eval (right.mapSpans σ))) :
    R (Run.evalLogical sub op left right)
      (Run.evalLogical sub' op (left.mapSpans σ) (right.mapSpans σ)) := by
  refine h.bind hl fun v => ?_
  cases op with
  | and =>
    dsimp only
    split
    · exact hr
    · exact h.pure v
  | or =>
    dsimp only
    split
    · exact h.pure v
    · exact hr

theorem evalSequence (last : Value) (parts : List Expr)
    (hparts : ∀ c ∈ parts, R (sub.eval c) (sub'.eval (c.mapSpans σ))) :
    R (Run.evalSequence sub last parts)
      (Run.evalSequence sub' last (parts.map (Expr.mapSpans σ))) := by
  induction parts generalizing last with
  | nil => exact h.pure last
  | cons e parts ih =>
    refine h.bind (hparts e List.mem_cons_self) fun v => ?_
    exact ih v fun c hc => hparts c (List.mem_cons_of_mem e hc)

theorem evalArray (elements : List Expr)
    (he : ∀ c ∈ elements, R (sub.eval c) (sub'.eval (c.mapSpans σ))) :
    R (Run.evalArray sub elements) (Run.evalArray sub' (elements.map (Expr.mapSpans σ))) := by
  refine h.bind (h.evalAll elements he) fun values => ?_
  exact h.bind (h.charge _) fun _ => h.primitive (.addArray values)

theorem evalObject (entries : List (String × Expr))
    (he : ∀ entry ∈ entries, R (sub.eval entry.2) (sub'.eval (entry.2.mapSpans σ))) :
    R (Run.evalObject sub entries)
      (Run.evalObject sub' (entries.map (Prod.map id (Expr.mapSpans σ)))) := by
  refine h.bind (h.mapM_map _ entries fun entry hentry => h.map (he entry hentry) _) fun values => ?_
  exact h.bind (h.charge _) fun _ => h.primitive (.addObject values)

/-- The rule for expressions, whatever is known of calls. -/
theorem exprBody (e : Expr)
    (he : ∀ c ∈ e.operands, R (sub.eval c) (sub'.eval (c.mapSpans σ)))
    (hname : ∀ name ∈ e.assignedName?, names name)
    (hcall : ∀ callee arguments span, e = .call callee arguments span →
      R (Run.evalCall env sub callee arguments span)
        (Run.evalCall env' sub' (callee.mapSpans σ) (arguments.map (Expr.mapSpans σ)) (σ span))) :
    R (Run.exprBody env sub e) (Run.exprBody env' sub' (e.mapSpans σ)) := by
  cases e with
  | literal value span => exact h.pure _
  | place p => exact h.readPlace p he
  | array elements span =>
    rw [Expr.mapSpans, mapSpansAll_eq_map]
    exact h.evalArray elements he
  | object entries span =>
    rw [Expr.mapSpans, mapSpansEntries_eq_map]
    exact h.evalObject entries fun entry hentry => he entry.2 (List.mem_map_of_mem hentry)
  | unary op operand span =>
    have ho := he operand (by simp [Expr.operands])
    -- `typeof` is the one operator with a rule of its own
    cases op with
    | typeof => exact h.evalTypeof operand ho
    | _ => exact h.bind ho fun v => h.orCrash (v.unary _)
  | updateBefore op span inner target =>
    exact h.bind_stepBefore op span target inner he hname fun stepped _ => h.pure stepped.2
  | updateAfter op target span => exact h.stepAfter op target span he hname
  | binary op left right span =>
    refine h.bind (he left (by simp [Expr.operands])) fun l => ?_
    exact h.bind (he right (by simp [Expr.operands])) fun r =>
      h.toCongruenceOn.binary h.concat op l r
  | logical op left right span =>
    exact h.evalLogical op left right (he left (by simp [Expr.operands]))
      (he right (by simp [Expr.operands]))
  | assign op target value span =>
    exact h.assign op target value span (fun c hc => he c (List.mem_append_left _ hc)) hname
      (he value (by simp [Expr.operands]))
  | conditional test consequent alternate span =>
    refine h.bind (he test (by simp [Expr.operands])) fun v => ?_
    split
    · exact he consequent (by simp [Expr.operands])
    · exact he alternate (by simp [Expr.operands])
  | sequence parts span =>
    rw [Expr.mapSpans, mapSpansAll_eq_map]
    exact h.evalSequence _ parts he
  | call callee arguments span =>
    rw [Expr.mapSpans, mapSpansAll_eq_map]
    exact hcall callee arguments span rfl

/-! ### Statements -/

/-- A declaration binds its name. -/
theorem declareOne (d : Declarator)
    (hd : ∀ c ∈ d.init.toList, R (sub.eval c) (sub'.eval (c.mapSpans σ))) (hname : names d.name) :
    R (Run.declareOne sub d) (Run.declareOne sub' (d.mapSpans σ)) := by
  unfold Run.declareOne Declarator.mapSpans
  cases hi : d.init with
  | some e =>
    exact h.bind (hd e (by simp [hi])) fun value => h.primitive (.define d.name value hname)
  | none =>
    refine h.bind (h.primitive (.isLocal d.name)) fun known => ?_
    split
    · exact h.pure ()
    · exact h.primitive (.define d.name .undefined hname)

theorem declare (declarators : List Declarator)
    (hd : ∀ d ∈ declarators, R (Run.declareOne sub d) (Run.declareOne sub' (d.mapSpans σ))) :
    R (Run.declare sub declarators)
      (Run.declare sub' (declarators.map (Declarator.mapSpans σ))) := by
  induction declarators with
  | nil => exact h.pure ()
  | cons d ds ih =>
    refine h.bind (hd d List.mem_cons_self) fun _ => ?_
    exact ih fun d' hd' => hd d' (List.mem_cons_of_mem d hd')

/-- Statements one after the other, up to the first that does not end normally. -/
theorem execBlock (body : List Stmt)
    (hb : ∀ s ∈ body, R (sub.exec s) (sub'.exec (s.mapSpans σ))) :
    R (Run.execBlock sub body) (Run.execBlock sub' (body.map (Stmt.mapSpans σ))) := by
  induction body with
  | nil => exact h.pure _
  | cons s rest ih =>
    refine h.bind (hb s List.mem_cons_self) fun completion => ?_
    cases completion with
    | normal => exact ih fun s' hs' => hb s' (List.mem_cons_of_mem s hs')
    | _ => exact h.pure _

theorem holds (test : Option Expr)
    (ht : ∀ c ∈ test.toList, R (sub.eval c) (sub'.eval (c.mapSpans σ))) :
    R (Run.holds sub test) (Run.holds sub' (test.map (Expr.mapSpans σ))) := by
  cases test with
  | some e => exact h.map (ht e (by simp)) _
  | none => exact h.pure true

theorem finishRound (update : Option Expr)
    (hu : ∀ c ∈ update.toList, R (sub.eval c) (sub'.eval (c.mapSpans σ))) :
    R (Run.finishRound sub update) (Run.finishRound sub' (update.map (Expr.mapSpans σ))) := by
  cases update with
  | some e => exact h.map (hu e (by simp)) _
  | none => exact h.pure ()

theorem loopRound (test update : Option Expr) (body : Stmt)
    (hparts : ∀ c ∈ test.toList ++ update.toList, R (sub.eval c) (sub'.eval (c.mapSpans σ)))
    (hbody : R (sub.exec body) (sub'.exec (body.mapSpans σ))) :
    R (Run.loopRound sub test update body)
      (Run.loopRound sub' (test.map (Expr.mapSpans σ)) (update.map (Expr.mapSpans σ))
        (body.mapSpans σ)) := by
  refine h.bind (h.holds test fun c hc => hparts c (List.mem_append_left _ hc)) fun goesOn => ?_
  split
  · refine h.bind hbody fun completion => ?_
    have hnext := h.map
      (h.finishRound update fun c hc => hparts c (List.mem_append_right _ hc))
      (fun _ => (none : Option Completion))
    cases completion with
    | normal | continueLoop => exact hnext
    | breakLoop | returned _ => exact h.pure _
  · exact h.pure _

/-- Loops with the same bound on their rounds are related if running out of rounds is. -/
theorem repeatLoop (hstop : R (unfinished : Run Completion) unfinished)
    (test update : Option Expr) (body : Stmt)
    (hparts : ∀ c ∈ test.toList ++ update.toList, R (sub.eval c) (sub'.eval (c.mapSpans σ)))
    (hbody : R (sub.exec body) (sub'.exec (body.mapSpans σ))) (rounds : Nat) :
    R (Run.repeatLoop sub test update body rounds)
      (Run.repeatLoop sub' (test.map (Expr.mapSpans σ)) (update.map (Expr.mapSpans σ))
        (body.mapSpans σ) rounds) := by
  induction rounds with
  | zero => exact hstop
  | succ rounds ih =>
    refine h.bind (h.loopRound test update body hparts hbody) fun ended => ?_
    cases ended with
    | some completion => exact h.pure completion
    | none => exact ih

/-- The start of a `for` loop, whose parts are among those of the loop. -/
theorem startLoop (init : Option ForInit) (test update : Option Expr) (body : Stmt) (span : Span)
    (he : ∀ c ∈ (Stmt.forLoop init test update body span).operands,
      R (sub.eval c) (sub'.eval (c.mapSpans σ)))
    (hs : ∀ s ∈ (Stmt.forLoop init test update body span).inner,
      R (sub.exec s) (sub'.exec (s.mapSpans σ))) :
    R (Run.startLoop sub init) (Run.startLoop sub' (init.map (ForInit.mapSpans σ))) := by
  cases init with
  | none => exact h.pure ()
  | some init =>
    cases init with
    | declare declarators span => exact h.map (hs (.declare declarators span) (by simp [Stmt.inner])) _
    | evaluate e => exact h.map (he e (by simp [Stmt.operands])) _

theorem returned (argument : Option Expr)
    (ha : ∀ c ∈ argument.toList, R (sub.eval c) (sub'.eval (c.mapSpans σ))) :
    R (Run.returned sub argument) (Run.returned sub' (argument.map (Expr.mapSpans σ))) := by
  cases argument with
  | some e => exact h.map (ha e (by simp)) _
  | none => exact h.pure _

/-- How loops compare is left open, since their rounds are bounded by the levels that are left. -/
theorem stmtBody (s : Stmt)
    (he : ∀ c ∈ s.operands, R (sub.eval c) (sub'.eval (c.mapSpans σ)))
    (hd : ∀ d ∈ s.declarators, R (Run.declareOne sub d) (Run.declareOne sub' (d.mapSpans σ)))
    (hs : ∀ t ∈ s.inner, R (sub.exec t) (sub'.exec (t.mapSpans σ)))
    (hloop : ∀ test update body,
      (∀ c ∈ test.toList ++ update.toList, R (sub.eval c) (sub'.eval (c.mapSpans σ))) →
      R (sub.exec body) (sub'.exec (body.mapSpans σ)) →
      R (Run.repeatLoop sub test update body sub.rounds)
        (Run.repeatLoop sub' (test.map (Expr.mapSpans σ)) (update.map (Expr.mapSpans σ))
          (body.mapSpans σ) sub'.rounds)) :
    R (Run.stmtBody sub s) (Run.stmtBody sub' (s.mapSpans σ)) := by
  cases s with
  | declare declarators span => exact h.map (h.declare declarators hd) _
  | block body span =>
    rw [Stmt.mapSpans, mapSpansStmts_eq_map]
    exact h.execBlock body hs
  | ifThen test consequent span =>
    refine h.bind (he test (by simp [Stmt.operands])) fun v => ?_
    split
    · exact hs consequent (by simp [Stmt.inner])
    · exact h.pure _
  | ifElse test consequent alternate span =>
    refine h.bind (he test (by simp [Stmt.operands])) fun v => ?_
    split
    · exact hs consequent (by simp [Stmt.inner])
    · exact hs alternate (by simp [Stmt.inner])
  -- The head of a loop is run once; what is left is the same as for a `while`.
  | forLoop init test update body span =>
    refine h.bind (h.startLoop init test update body span he hs) fun _ => ?_
    exact hloop test update body (fun c hc => he c (List.mem_append_right _ hc))
      (hs body (by simp [Stmt.inner]))
  | whileLoop test body span =>
    exact hloop (some test) none body he (hs body (by simp [Stmt.inner]))
  | breakLoop span | continueLoop span | empty span => exact h.pure _
  | returnValue argument span => exact h.returned argument he
  | expression e span => exact h.map (he e (by simp [Stmt.operands])) _

end Correspondence

namespace Simulation

variable {σ : Span → Span} {env env' : Env} {R : ∀ {α : Type}, Run α → Run α → Prop}
  (h : Simulation σ env env' R) {sub sub' : Evaluators}
include h

/-- The rule for expressions, where functions are called in related ways. -/
theorem exprBody (e : Expr)
    (he : ∀ c ∈ e.operands, R (sub.eval c) (sub'.eval (c.mapSpans σ)))
    (hcall : ∀ name f args, env.function? name = some f →
      R (sub.call f args) (sub'.call (f.mapSpans σ) args)) :
    R (Run.exprBody env sub e) (Run.exprBody env' sub' (e.mapSpans σ)) := by
  refine h.toCorrespondence.exprBody e he (fun _ _ => trivial) ?_
  rintro callee arguments span rfl
  refine h.evalCall callee arguments span he fun name range args _ => ?_
  exact h.callName name args span (fun f hf => hcall name f args hf) fun b _ _ =>
    h.builtin b args span

theorem stmtBody (s : Stmt)
    (he : ∀ c ∈ s.operands, R (sub.eval c) (sub'.eval (c.mapSpans σ)))
    (hs : ∀ t ∈ s.inner, R (sub.exec t) (sub'.exec (t.mapSpans σ)))
    (hloop : ∀ test update body,
      (∀ c ∈ test.toList ++ update.toList, R (sub.eval c) (sub'.eval (c.mapSpans σ))) →
      R (sub.exec body) (sub'.exec (body.mapSpans σ)) →
      R (Run.repeatLoop sub test update body sub.rounds)
        (Run.repeatLoop sub' (test.map (Expr.mapSpans σ)) (update.map (Expr.mapSpans σ))
          (body.mapSpans σ) sub'.rounds)) :
    R (Run.stmtBody sub s) (Run.stmtBody sub' (s.mapSpans σ)) := by
  refine h.toCorrespondence.stmtBody s he (fun d hd => ?_) hs hloop
  exact h.declareOne d (fun c hc => he c (s.init_mem_operands hd hc)) trivial

theorem callBody (f : Function) (args : List Value)
    (hf : ∀ c ∈ f.fallbacks, R (sub.eval c) (sub'.eval (c.mapSpans σ)))
    (hbody : R (sub.exec (.block f.body f.bodySpan))
      (sub'.exec (Stmt.mapSpans σ (.block f.body f.bodySpan)))) :
    R (Run.callBody sub f args) (Run.callBody sub' (f.mapSpans σ) args) :=
  h.toCorrespondence.callBody f args hf (fun _ _ => trivial) hbody

end Simulation

/-! ## The same environment -/

namespace CongruenceOn

variable {σ : Span → Span} {names : String → Prop} {R : ∀ {α : Type}, Run α → Run α → Prop}
  (h : CongruenceOn σ names R)
include h

theorem concat (bound : Nat) (left right : Value) :
    R (Run.concat bound left right) (Run.concat bound left right) := by
  refine h.bind (h.primitive (.display left)) fun l => ?_
  refine h.bind (h.primitive (.display right)) fun r => ?_
  dsimp only
  split
  · exact h.fail (.exhausted _) rfl
  · exact h.bind (h.charge _) fun _ => h.pure _

theorem ofOutcome {α : Type} (outcome : Except Error α)
    (hfail : ∀ e, outcome = .error e → R (Run.fail e : Run α) (Run.fail e)) :
    R (Run.ofOutcome outcome) (Run.ofOutcome outcome) := by
  cases outcome with
  | ok a => exact h.pure a
  | error e => exact hfail e rfl

variable {collaborators : Collaborators}
  (hanswer : ∀ e, collaborators.MayAnswer e → R (Run.fail e : Run Datum) (Run.fail e))
include hanswer

/-- What a token gives, or that there is nobody to ask. -/
theorem askToken (id : Decimal) (args : List Datum) :
    R (Run.askToken collaborators id args) (Run.askToken collaborators id args) := by
  unfold Run.askToken
  cases hexecute : collaborators.tokenExecutor with
  | some execute =>
    exact h.ofOutcome _ fun e he => hanswer e (.inl ⟨execute, id, args, hexecute, he⟩)
  | none => exact h.fail (.collaborator .noTokenExecutor) rfl

theorem askContract (address signature : String) (returnType : Datum) (args : List Datum) :
    R (Run.askContract collaborators address signature returnType args)
      (Run.askContract collaborators address signature returnType args) := by
  unfold Run.askContract
  cases hcall : collaborators.contractCaller with
  | some call =>
    exact h.ofOutcome _ fun e he =>
      hanswer e (.inr ⟨call, address, signature, returnType, args, hcall, he⟩)
  | none => exact h.fail (.collaborator .noContractCaller) rfl

omit hanswer in
theorem argumentText (args : List Value) (i : Nat) :
    R (Run.argumentText args i) (Run.argumentText args i) := by
  unfold Run.argumentText
  cases args[i]? with
  | some v => exact h.primitive (.display v)
  | none => exact h.pure ""

/-- Builtins ask the same collaborators, with the same data. -/
theorem callBuiltin (b : Builtin) (args : List Value) (span : Span) :
    R (Run.callBuiltin collaborators b args span)
      (Run.callBuiltin collaborators b args (σ span)) := by
  have hdata : ∀ vs : List Value, R (vs.mapM fun v => Run.exportDatum v span)
      (vs.mapM fun v => Run.exportDatum v (σ span)) :=
    fun vs => h.mapM vs fun v => h.exportDatum v span
  -- the builtins differ in which arguments they read, and in what they ask
  cases b with
  | executeToken =>
    unfold Run.callBuiltin Run.executeToken
    dsimp only
    refine h.bind (h.orCrash (tokenId args)) fun token => ?_
    cases token with
    | none => exact h.fail (.collaborator .tokenId) rfl
    | some token =>
      refine h.bind (hdata _) fun data => ?_
      exact h.bind (h.askToken hanswer token data) fun d => h.importDatum d
  | staticcallContract =>
    unfold Run.callBuiltin Run.staticcallContract
    dsimp only
    refine h.bind (h.argumentText args 0) fun address => ?_
    refine h.bind (h.argumentText args 1) fun signature => ?_
    -- a missing return type is undefined; from there on both cases are one
    have hrest : ∀ returnType, R
        (do
          let data ← (args.drop 3).mapM fun v => Run.exportDatum v span
          Run.importDatum (← Run.askContract collaborators address signature returnType data))
        (do
          let data ← (args.drop 3).mapM fun v => Run.exportDatum v (σ span)
          Run.importDatum (← Run.askContract collaborators address signature returnType data)) :=
      fun returnType => h.bind (hdata _) fun data =>
        h.bind (h.askContract hanswer address signature returnType data) fun d =>
          h.importDatum d
    cases args[2]? with
    | some v => exact h.bind (h.exportDatum v span) hrest
    | none => exact h.bind (h.pure Datum.undefined) hrest

end CongruenceOn

namespace Congruence

variable {R : ∀ {α : Type}, Run α → Run α → Prop} (h : Congruence id R)
include h

/-- Any congruence that keeps the errors of collaborators compares runs in one environment. -/
theorem simulation (env : Env)
    (hanswer : ∀ e, env.collaborators.MayAnswer e → R (Run.fail e : Run Datum) (Run.fail e)) :
    Simulation id env env R where
  toCongruenceOn := h
  functions name := by
    have hid : Function.mapSpans id = id := funext Function.mapSpans_id
    rw [hid, Option.map_id, id]
  concat left right := h.concat _ left right
  builtin b args span := h.callBuiltin hanswer b args span

end Congruence

end Run

/-! ## All levels -/

/-- The number of the level shows in nothing that is computed. -/
theorem evaluators_level (env : Env) (level levels : Nat) :
    evaluators env level levels = evaluators env 0 levels := by
  induction levels generalizing level with
  | zero => rfl
  | succ levels ih =>
    unfold evaluators
    simp only [deepen_eq, ih (level + 1), ih (0 + 1)]

theorem evaluators_rounds (env : Env) (level levels : Nat) :
    (evaluators env level levels).rounds = levels := by
  cases levels <;> rfl

/-- The rules for what is entered at a level, given the levels below. -/
def Evaluators.tie (env : Env) (sub : Evaluators) (rounds : Nat) : Evaluators :=
  ⟨Run.evalExpr env sub, Run.execStmt sub, Run.callFunction sub, rounds⟩

/-- Evaluation down to one level more is made of one rule on top of what was there. -/
theorem evaluators_succ (env : Env) (levels : Nat) :
    evaluators env 0 (levels + 1) = (evaluators env 0 levels).tie env (levels + 1) := by
  rw [evaluators, Evaluators.tie]
  simp only [deepen_eq, evaluators_level env (0 + 1) levels]

namespace Run

/-- Two evaluations that are related on everything. -/
structure Related (σ : Span → Span) (R : ∀ {α : Type}, Run α → Run α → Prop)
    (sub sub' : Evaluators) : Prop where
  eval (e : Expr) : R (sub.eval e) (sub'.eval (e.mapSpans σ))
  exec (s : Stmt) : R (sub.exec s) (sub'.exec (s.mapSpans σ))
  call (f : Function) (args : List Value) : R (sub.call f args) (sub'.call (f.mapSpans σ) args)

namespace Simulation

variable {σ : Span → Span} {env env' : Env} {R : ∀ {α : Type}, Run α → Run α → Prop}
  (h : Simulation σ env env' R) (hframe : ∀ {α : Type} {x y : Run α}, R x y → R (inFrame x) (inFrame y))
include h hframe

/-- Tying the rules keeps evaluations related, if loops are. -/
theorem tie {sub sub' : Evaluators} (hsub : Related σ R sub sub') (rounds rounds' : Nat)
    (hloop : ∀ test update body,
      R (Run.repeatLoop sub test update body sub.rounds)
        (Run.repeatLoop sub' (test.map (Expr.mapSpans σ)) (update.map (Expr.mapSpans σ))
          (body.mapSpans σ) sub'.rounds)) :
    Related σ R (sub.tie env rounds) (sub'.tie env' rounds') where
  eval e := h.bind h.enter fun _ =>
    h.exprBody e (fun c _ => hsub.eval c) fun _ f args _ => hsub.call f args
  exec s := h.bind h.enter fun _ =>
    h.stmtBody s (fun c _ => hsub.eval c) (fun t _ => hsub.exec t) fun test update body _ _ =>
      hloop test update body
  call f args := h.bind h.enter fun _ =>
    hframe (h.callBody f args (fun c _ => hsub.eval c) (hsub.exec _))

/-- Evaluations down to the same number of levels are related if running out of levels is. -/
theorem evaluators (hstop : ∀ {α : Type}, R (unfinished : Run α) unfinished) (levels : Nat) :
    Related σ R (evaluators env 0 levels) (evaluators env' 0 levels) := by
  induction levels with
  | zero => exact ⟨fun _ => hstop, fun _ => hstop, fun _ _ => hstop⟩
  | succ levels ih =>
    rw [evaluators_succ, evaluators_succ]
    refine h.tie hframe ih _ _ fun test update body => ?_
    rw [evaluators_rounds, evaluators_rounds]
    exact h.repeatLoop hstop test update body (fun c _ => ih.eval c) (ih.exec body) _

end Simulation

end Run

/-! ## Whole runs -/

variable {f : Function} {program : Program}

theorem Program.mem_functions : f ∈ program.functions ↔ Item.function f ∈ program.items := by
  unfold Program.functions
  rw [List.mem_filterMap]
  constructor
  · rintro ⟨item, hitem, hf⟩
    cases item with
    | function g =>
      cases hf
      exact hitem
    | statement s => cases hf
  · intro hf
    exact ⟨.function f, hf, rfl⟩

theorem Program.snd_mem_functions {numbered : Nat × Function}
    (hf : numbered ∈ program.numberedFunctions) : numbered.2 ∈ program.functions := by
  rw [Program.mem_functions]
  unfold Program.numberedFunctions at hf
  obtain ⟨⟨number, item⟩, hmem, hitem⟩ := List.mem_filterMap.mp hf
  cases item with
  | function g =>
    cases hitem
    exact (List.of_mem_zip hmem).2
  | statement s => cases hitem

/-- A program without an entry is no fault of its syntax. -/
theorem Program.isRuntime_of_entry {start : Nat} {e : Error} (he : program.entry start = .error e) :
    e.isRuntime = true := by
  unfold Program.entry at he
  dsimp only at he
  split at he
  · cases he
  · cases he
    rfl

theorem Program.entry_mem {start : Nat} (hf : program.entry start = .ok f) :
    f ∈ program.functions := by
  unfold Program.entry at hf
  dsimp only at hf
  split at hf
  · rename_i g hg
    cases hf
    -- the first function, or the one that has the number of the start
    split at hg
    · exact List.mem_of_head? hg
    · obtain ⟨numbered, hfind, rfl⟩ := Option.map_eq_some_iff.mp hg
      exact Program.snd_mem_functions (List.mem_of_find?_eq_some hfind)
  · cases hf

/-- The function that a name stands for in a run is one of the program's. -/
theorem FunctionTable.mem_of_getElem? {functions : List Function} {name : String}
    (hf : (FunctionTable.ofList functions)[name]? = some f) : f ∈ functions := by
  rw [FunctionTable.getElem?_ofList] at hf
  exact List.mem_reverse.mp (List.mem_of_find?_eq_some hf)

/-- The entry of a program, or the error that there is none, with other source ranges. -/
def mapEntrySpans (σ : Span → Span) : Except Error Function → Except Error Function
  | .ok f => .ok (f.mapSpans σ)
  | .error e => .error (e.mapSpan σ)

theorem mapEntrySpans_id (entry : Except Error Function) : mapEntrySpans id entry = entry := by
  cases entry with
  | ok f => rw [mapEntrySpans, f.mapSpans_id]
  | error e => rw [mapEntrySpans, e.mapSpan_id]

namespace Run

section

variable {σ : Span → Span} {R : ∀ {α : Type}, Run α → Run α → Prop} (h : Congruence σ R)
  (hglobal : ∀ name v, R (defineGlobal name v) (defineGlobal name v))
include h hglobal

/-- Names from outside are bound before anything runs. -/
theorem Congruence.bindIdentifiers (identifiers : List (String × Datum)) :
    R (Run.bindIdentifiers identifiers) (Run.bindIdentifiers identifiers) := by
  induction identifiers with
  | nil => exact h.pure ()
  | cons identifier rest ih =>
    refine h.bind (h.importDatum identifier.2) fun v => ?_
    exact h.bind (hglobal identifier.1 v) fun _ => ih

/-- Runs of two programs are related if their entries are the same up to source ranges and the calls of
their functions are related. -/
theorem Congruence.programBy_mapSpans {program program' : Program} {context : RunContext}
    {call call' : Function → List Value → Run Value}
    (hentry : program'.entry context.start = mapEntrySpans σ (program.entry context.start))
    (hcall : ∀ f ∈ program.functions, ∀ args, R (call f args) (call' (f.mapSpans σ) args)) :
    R (Run.programBy program context call) (Run.programBy program' context call') := by
  refine h.bind (h.bindIdentifiers hglobal context.identifiers) fun _ => ?_
  rw [hentry]
  cases hfound : program.entry context.start with
  | error e => exact h.fail e (Program.isRuntime_of_entry hfound)
  | ok f =>
    simp only [mapEntrySpans, Run.ofOutcome, pure_bind]
    refine h.bind (h.mapM context.args fun d => h.importDatum d) fun args => ?_
    refine h.bind (hcall f (Program.entry_mem hfound) args) fun v => ?_
    exact h.exportDatum v f.span

end

theorem Congruence.programBy {R : ∀ {α : Type}, Run α → Run α → Prop} (h : Congruence id R)
    (hglobal : ∀ name v, R (defineGlobal name v) (defineGlobal name v)) (program : Program)
    (context : RunContext) {call call' : Function → List Value → Run Value}
    (hcall : ∀ f ∈ program.functions, ∀ args, R (call f args) (call' f args)) :
    R (Run.programBy program context call) (Run.programBy program context call') := by
  refine h.programBy_mapSpans hglobal (mapEntrySpans_id _).symm fun f hf args => ?_
  rw [f.mapSpans_id]
  exact hcall f hf args

end Run

/-! ## Agreement unless a run halts

Of many changes to a run one can say that they show only in runs that halt in certain ways. Here the
two runs agree, state and all, unless the first one halts so.
-/

namespace Run

/-- A computation that does the same as `x` unless `x` halts in one of the ways `halts`. -/
def AgreeUnless (halts : Halt → Prop) {α : Type} (x y : Run α) : Prop :=
  ∀ s, (∀ halt t, x s = .error halt t → ¬halts halt) → y s = x s

namespace AgreeUnless

variable {halts : Halt → Prop} {α β : Type} {x y : Run α}

theorem refl (x : Run α) : AgreeUnless halts x x := fun _ _ => rfl

theorem of_throw {halt : Halt} (hhalt : halts halt) (y : Run α) : AgreeUnless halts (throw halt) y :=
  fun s hs => absurd hhalt (hs halt s rfl)

/-- What agrees up to a halt goes on to agree. -/
theorem bind {f g : α → Run β} (hxy : AgreeUnless halts x y)
    (hfg : ∀ a, AgreeUnless halts (f a) (g a)) : AgreeUnless halts (x >>= f) (y >>= g) := by
  intro s hs
  -- a halt on the left may come before the two part
  cases hr : x s with
  | ok a t =>
    have hfirst : y s = .ok a t := (hxy s (by rintro halt u hu; cases hr.symm.trans hu)).trans hr
    rw [bind_of_ok hr] at hs ⊢
    rw [bind_of_ok hfirst]
    exact hfg a t hs
  | error halt t =>
    -- the whole halts as its first part does, so the first parts agree too
    have hhalt := hs halt t (bind_of_error hr)
    have hfirst : y s = .error halt t := by
      rw [hxy s (by rw [hr]; rintro _ _ ⟨⟩; exact hhalt), hr]
    rw [bind_of_error hr, bind_of_error hfirst]

/-- A frame that is left in any case makes no difference. -/
theorem inFrame (hxy : AgreeUnless halts x y) : AgreeUnless halts (Run.inFrame x) (Run.inFrame y) := by
  intro s hs
  unfold Run.inFrame at hs ⊢
  have hbody : ∀ halt t, x { s with frames := s.frames.push } = .error halt t → ¬halts halt := by
    intro halt t ht
    rw [ht] at hs
    exact hs halt _ rfl
  rw [hxy _ hbody]

end AgreeUnless

/-- Agreement up to a halt is kept by all rules. -/
theorem congruence_agreeUnless (halts : Halt → Prop) : Congruence id (AgreeUnless halts) where
  pure a := .refl _
  bind hxy hfg := .bind hxy hfg
  fail e _ := by
    rw [Error.mapSpan_id]
    exact .refl _
  crash c := .refl _
  charge units := .refl _
  enter := .refl _
  primitive hx := .refl _

theorem simulation_agreeUnless (halts : Halt → Prop) (env : Env) :
    Simulation id env env (AgreeUnless halts) :=
  (congruence_agreeUnless halts).simulation env fun _ _ => .refl _

end Run

end MeteredScript
