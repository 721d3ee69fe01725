import MeteredScript.Proofs.Congruence

namespace MeteredScript

/-! # Runs step by step

As a computation a run shows only the state it starts in and the one it stops in. What holds
throughout a run, in every state of it, is said of its course: which operations it performs, one
after another, and in which states. `Steps` is a computation with its course, `Steps.run` the
computation alone. Every rule is written out in steps here and runs as the rule does, so that
`Program.events` is the course of `Program.run`.
-/

/-! ## Operations -/

/-- What a run does to its state, one thing at a time, and what may crash. Control, and what else
depends on values only, is no operation, but `give` marks the value that an expression or a call comes
to. -/
inductive Operation : Type → Type
  | enter : Operation Unit
  | lookup (name : String) : Operation (Option Value)
  | isLocal (name : String) : Operation Bool
  | define (name : String) (value : Value) : Operation Unit
  | bindGlobal (name : String) (value : Value) : Operation Unit
  | read (location : Location) (span : Span) : Operation Value
  | write (location : Location) (value : Value) (span : Span) : Operation Unit
  | step (op : UpdateOp) (location : Location) (span : Span) : Operation (Option Decimal × Value)
  | combine (op : BinaryOp) (left right : Value) : Operation Value
  | apply (op : UnaryOp) (v : Value) : Operation Value
  | display (v : Value) : Operation String
  | makeArray (elements : List Value) : Operation Value
  | makeObject (entries : List (String × Value)) : Operation Value
  | callMethod (receiver : Value) (method : String) (args : List Value) (span : Span) :
      Operation Value
  | tokenId (args : List Value) : Operation (Option Decimal)
  | askToken (id : Decimal) (args : List Datum) : Operation Datum
  | askContract (address signature : String) (returnType : Datum) (args : List Datum) :
      Operation Datum
  | takeIn (d : Datum) : Operation Value
  | copyOut (v : Value) (span : Span) : Operation Datum
  | give (v : Value) : Operation Unit

/-- Performs an operation. What makes an array or an object pays for it first. -/
def Operation.perform (env : Env) : {α : Type} → Operation α → Run α
  | _, enter => Run.enter
  | _, lookup name => Run.lookup name
  | _, isLocal name => Run.isLocal name
  | _, define name value => Run.define name value
  | _, bindGlobal name value => Run.defineGlobal name value
  | _, read location span => Run.readLocation location span
  | _, write location value span => Run.writeLocation location value span
  | _, step op location span => Run.stepLocation op location span
  | _, combine op left right => Run.binary env.maxStringLength op left right
  | _, apply op v => Run.unary op v
  | _, display v => Run.display v
  | _, makeArray elements => do
    Run.charge (1 + elements.length)
    Run.addArray elements
  | _, makeObject entries => do
    Run.charge (1 + entries.length)
    Run.addObject entries
  | _, callMethod receiver method args span => Run.callMethod receiver method args span
  | _, tokenId args => Run.orCrash (Run.tokenId args)
  | _, askToken id args => Run.askToken env.collaborators id args
  | _, askContract address signature returnType args =>
    Run.askContract env.collaborators address signature returnType args
  | _, takeIn d => Run.importDatum d
  | _, copyOut v span => Run.exportDatum v span
  | _, give _ => pure ()

/-! ## Computations in steps -/

/-- A computation in steps. It may fail, or stop for want of levels, between its operations; only
operations crash. -/
inductive Steps : Type → Type 1
  | done {α : Type} (a : α) : Steps α
  | fail {α : Type} (error : Error) : Steps α
  | unfinished {α : Type} : Steps α
  | perform {α : Type} (op : Operation α) : Steps α
  | bind {α β : Type} (x : Steps α) (f : α → Steps β) : Steps β
  | inFrame {α : Type} (x : Steps α) : Steps α

/-- An operation that was performed: the state it found, and what came of it. -/
structure Event where
  {α : Type}
  operation : Operation α
  before : State
  result : EStateM.Result Halt State α

def Event.after (event : Event) : State := Run.final event.result

/-- Whether an operation came to a result. -/
def Event.Succeeded (event : Event) : Prop := ∃ a t, event.result = .ok a t

/-- Two states with the same heap and the same meter. -/
structure State.SameStore (s t : State) : Prop where
  heap : t.heap = s.heap
  meter : t.meter = s.meter

theorem State.SameStore.refl (s : State) : s.SameStore s := ⟨rfl, rfl⟩

/-- Having the same heap and meter is transitive. -/
theorem State.SameStore.trans {s t u : State} (h : s.SameStore t) (h' : t.SameStore u) :
    s.SameStore u :=
  ⟨h'.heap.trans h.heap, h'.meter.trans h.meter⟩

/-- From one state to another by operations each of which finds the heap and the meter as the one
before it left them. -/
def Linked : State → List Event → State → Prop
  | s, [], t => s.SameStore t
  | s, event :: rest, t => s.SameStore event.before ∧ Linked event.after rest t

namespace Linked

variable {events : List Event} {s t : State}

/-- A course may start in any state with the same heap and meter. -/
theorem of_start {s' : State} (h : Linked s events t) (hs : s'.SameStore s) :
    Linked s' events t := by
  cases events with
  | nil => exact hs.trans h
  | cons event rest => exact ⟨hs.trans h.1, h.2⟩

/-- Courses follow one another. -/
theorem append {u : State} {events' : List Event} (h : Linked s events t)
    (h' : Linked t events' u) : Linked s (events ++ events') u := by
  induction events generalizing s with
  | nil => exact h'.of_start h
  | cons event rest ih => exact ⟨h.1, ih h.2⟩

/-- A course may stop in any state with the same heap and meter. -/
theorem of_stop {t' : State} (h : Linked s events t) (ht : t.SameStore t') :
    Linked s events t' := by
  rw [← List.append_nil events]
  exact h.append ht

/-- What every successful operation keeps holds before every operation, if only the last one may
fail. -/
theorem forall_before {P : State → Prop} (h : Linked s events t)
    (hstore : ∀ {s s' : State}, s.SameStore s' → P s → P s')
    (hstep : ∀ event ∈ events, event.Succeeded → P event.before → P event.after)
    (hsucceeded : ∀ event ∈ events.dropLast, event.Succeeded) (hs : P s) :
    ∀ event ∈ events, P event.before := by
  induction events generalizing s with
  | nil => exact fun _ hevent => absurd hevent List.not_mem_nil
  | cons event rest ih =>
    obtain ⟨hbefore, hrest⟩ := h
    have hsteps := List.forall_mem_cons.mp hstep
    have hfirst : P event.before := hstore hbefore hs
    cases rest with
    | nil => exact List.forall_mem_singleton.mpr hfirst
    | cons next rest =>
      have hok := List.forall_mem_cons.mp hsucceeded
      exact List.forall_mem_cons.mpr ⟨hfirst, ih hrest hsteps.2 hok.2 (hsteps.1 hok.1 hfirst)⟩

end Linked

namespace Steps

instance : Monad Steps where
  pure := done
  bind := bind

def run (env : Env) : {α : Type} → Steps α → Run α
  | _, done a => pure a
  | _, fail error => Run.fail error
  | _, unfinished => Run.unfinished
  | _, perform op => op.perform env
  | _, bind x f => run env x >>= fun a => run env (f a)
  | _, inFrame x => Run.inFrame (run env x)

def events (env : Env) : {α : Type} → Steps α → State → List Event
  | _, done _, _ => []
  | _, fail _, _ => []
  | _, unfinished, _ => []
  | _, perform op, s => [⟨op, s, op.perform env s⟩]
  | _, bind x f, s =>
    events env x s ++
      match run env x s with
      | .ok a t => events env (f a) t
      | .error _ _ => []
  | _, inFrame x, s => events env x { s with frames := s.frames.push }

/-- Marks the value that a computation comes to. -/
def giving (x : Steps Value) : Steps Value := do
  let v ← x
  perform (.give v)
  return v

/-- Goes through a list from left to right. -/
def each {α β : Type} (f : α → Steps β) : List α → Steps (List β)
  | [] => pure []
  | a :: rest => do
    let b ← f a
    let bs ← each f rest
    return b :: bs

section

variable (env : Env) {α β : Type}

@[simp] theorem run_pure (a : α) : run env (pure a) = pure a := rfl

@[simp] theorem run_perform (op : Operation α) : run env (perform op) = op.perform env := rfl

@[simp] theorem run_bind (x : Steps α) (f : α → Steps β) :
    run env (x >>= f) = run env x >>= fun a => run env (f a) := rfl

@[simp] theorem run_inFrame (x : Steps α) : run env (inFrame x) = Run.inFrame (run env x) := rfl

/-- To give a value changes nothing, it only shows in the course. -/
@[simp] theorem run_giving (x : Steps Value) : run env (giving x) = run env x := by
  have hgive : ∀ v, (Operation.give v).perform env = pure () := fun _ => rfl
  simp only [giving, run_bind, run_perform, run_pure, hgive, pure_bind, bind_pure]

theorem run_ite (c : Prop) [Decidable c] (x y : Steps α) :
    run env (if c then x else y) = if c then run env x else run env y :=
  apply_ite (run env) c x y

theorem run_each (f : α → Steps β) (l : List α) :
    run env (each f l) = l.mapM fun a => run env (f a) := by
  induction l with
  | nil => rfl
  | cons a rest ih =>
    rw [List.mapM_cons, ← ih]
    rfl

end

/-! ## The course of a computation

The events of a computation are operations that were performed as they are there, and each finds the
heap and the meter as the one before it left them.
-/

section

variable {env : Env} {α β : Type}

variable {s t : State} {x : Steps α}

/-- The course of what has a result goes on in the state it left. -/
theorem events_bind_ok {f : α → Steps β} {a : α} (hx : run env x s = .ok a t) :
    events env (x >>= f) s = events env x s ++ events env (f a) t := by
  change events env (bind x f) s = _
  rw [events, hx]

theorem events_bind_error {f : α → Steps β} {h : Halt} (hx : run env x s = .error h t) :
    events env (x >>= f) s = events env x s := by
  change events env (bind x f) s = _
  rw [events, hx, List.append_nil]

/-- An event is what comes of its operation. -/
theorem result_of_mem_events {event : Event} (hevent : event ∈ events env x s) :
    event.result = event.operation.perform env event.before := by
  induction x generalizing s with
  | done a | fail error | unfinished => cases hevent
  | perform op =>
    rcases List.mem_singleton.mp hevent with rfl
    rfl
  | bind x f ihx ihf =>
    cases hr : run env x s with
    -- The second part is performed only if the first succeeds.
    | ok a t =>
      rw [show events env (bind x f) s = _ from events_bind_ok hr] at hevent
      rcases List.mem_append.mp hevent with hfirst | hnext
      · exact ihx hfirst
      · exact ihf a hnext
    | error h t =>
      rw [show events env (bind x f) s = _ from events_bind_error hr] at hevent
      exact ihx hevent
  | inFrame x ih => exact ih hevent

/-- Where there is a result, all operations had one. -/
theorem succeeded_of_run_ok {a : α} (h : run env x s = .ok a t) :
    ∀ event ∈ events env x s, event.Succeeded := by
  induction x generalizing s t with
  | done a | fail error | unfinished => exact fun _ hevent => absurd hevent List.not_mem_nil
  | perform op => exact List.forall_mem_singleton.mpr ⟨a, t, h⟩
  | bind x f ihx ihf =>
    cases hr : run env x s with
    | ok b u =>
      have hnext : run env (f b) u = .ok a t := (Run.bind_of_ok hr).symm.trans h
      rw [show events env (bind x f) s = _ from events_bind_ok hr]
      exact List.forall_mem_append.mpr ⟨ihx hr, ihf b hnext⟩
    | error halt u => cases (Run.bind_of_error hr).symm.trans h
  | inFrame x ih =>
    -- Leaving the frame keeps the answer, so the inner run succeeded too.
    have hinner : ∃ u, run env x { s with frames := s.frames.push } = .ok a u := by
      rw [run_inFrame, Run.inFrame] at h
      cases hr : run env x { s with frames := s.frames.push } with
      | ok b u =>
        rw [hr] at h
        cases h
        exact ⟨u, rfl⟩
      | error halt u =>
        rw [hr] at h
        cases h
    obtain ⟨u, hu⟩ := hinner
    exact ih hu

/-- Only the last operation may fail. -/
theorem succeeded_of_mem_dropLast (x : Steps α) (s : State) :
    ∀ event ∈ (events env x s).dropLast, event.Succeeded := by
  induction x generalizing s with
  | done a | fail error | unfinished => exact fun _ hevent => absurd hevent List.not_mem_nil
  | perform op => exact fun _ hevent => absurd hevent List.not_mem_nil
  | bind x f ihx ihf =>
    cases hr : run env x s with
    | ok a t =>
      rw [show events env (bind x f) s = _ from events_bind_ok hr, List.dropLast_append]
      split
      · exact ihx s
      · exact List.forall_mem_append.mpr ⟨succeeded_of_run_ok hr, ihf a t⟩
    | error halt t =>
      rw [show events env (bind x f) s = _ from events_bind_error hr]
      exact ihx s
  | inFrame x ih => exact ih _

/-- Where all operations that are performed come to the same, so does the computation. -/
theorem congr_of_events {env' : Env}
    (h : ∀ event ∈ events env x s,
      event.operation.perform env' event.before = event.operation.perform env event.before) :
    run env' x s = run env x s ∧ events env' x s = events env x s := by
  induction x generalizing s with
  | done a | fail error | unfinished => exact ⟨rfl, rfl⟩
  | perform op =>
    -- the only operation of this course is the one that is performed here
    have hop : op.perform env' s = op.perform env s := h _ List.mem_cons_self
    refine ⟨hop, ?_⟩
    simp only [events, hop]
  | bind x f ihx ihf =>
    cases hr : run env x s with
    | ok a t =>
      rw [show events env (bind x f) s = _ from events_bind_ok hr] at h ⊢
      obtain ⟨hfirst, hnext⟩ := List.forall_mem_append.mp h
      obtain ⟨hrun, hevents⟩ := ihx hfirst
      obtain ⟨hrun', hevents'⟩ := ihf a hnext
      rw [hr] at hrun
      rw [show events env' (bind x f) s = _ from events_bind_ok hrun, hevents, hevents',
        show run env' (bind x f) s = _ from Run.bind_of_ok hrun,
        show run env (bind x f) s = _ from Run.bind_of_ok hr]
      exact ⟨hrun', rfl⟩
    | error halt t =>
      rw [show events env (bind x f) s = _ from events_bind_error hr] at h ⊢
      obtain ⟨hrun, hevents⟩ := ihx h
      rw [hr] at hrun
      rw [show events env' (bind x f) s = _ from events_bind_error hrun,
        show run env' (bind x f) s = _ from Run.bind_of_error hrun,
        show run env (bind x f) s = _ from Run.bind_of_error hr]
      exact ⟨rfl, hevents⟩
  | inFrame x ih =>
    obtain ⟨hrun, hevents⟩ := ih h
    refine ⟨?_, hevents⟩
    simp only [run_inFrame, Run.inFrame, hrun]

/-- Each operation finds the heap and the meter as the one before it left them. -/
theorem linked_events (x : Steps α) (s : State) :
    Linked s (events env x s) (Run.final (run env x s)) := by
  induction x generalizing s with
  | done a | fail error | unfinished => exact .refl s
  | perform op => exact ⟨.refl s, .refl _⟩
  | bind x f ihx ihf =>
    have hfirst := ihx s
    cases hr : run env x s with
    | ok a t =>
      rw [hr] at hfirst
      rw [show events env (bind x f) s = _ from events_bind_ok hr,
        show run env (bind x f) s = _ from Run.bind_of_ok hr]
      exact hfirst.append (ihf a t)
    | error h t =>
      rw [hr] at hfirst
      rw [show events env (bind x f) s = _ from events_bind_error hr,
        show run env (bind x f) s = _ from Run.bind_of_error hr]
      exact hfirst
  | inFrame x ih =>
    -- opening and closing a frame is all that happens besides
    have hopened : s.SameStore { s with frames := s.frames.push } := ⟨rfl, rfl⟩
    have hclosed : (Run.final (run env x { s with frames := s.frames.push })).SameStore
        (Run.final (run env (inFrame x) s)) := by
      rw [run_inFrame]
      unfold Run.inFrame
      cases run env x { s with frames := s.frames.push } <;> exact ⟨rfl, rfl⟩
    exact ((ih _).of_start hopened).of_stop hclosed

end

/-! ## Rules

Each has the name of the rule that it is in steps.
-/

/-- Evaluation one level further down, in steps; a loop gets at most `rounds` rounds. -/
structure Evaluators where
  eval : Expr → Steps Value
  exec : Stmt → Steps Completion
  call : Function → List Value → Steps Value
  rounds : Nat

/-- The computations of an evaluation in steps. -/
def Evaluators.run (env : Env) (sub : Evaluators) : MeteredScript.Evaluators where
  eval e := Steps.run env (sub.eval e)
  exec s := Steps.run env (sub.exec s)
  call f args := Steps.run env (sub.call f args)
  rounds := sub.rounds

variable (env : Env) (sub : Evaluators)

/-! ### Places -/

def locate : Place → Steps Location
  | .ident name _ => pure (.name name)
  | .member object name _ => do return .member (← sub.eval object) (.string name)
  | .index object key _ => do
    let object ← sub.eval object
    return .member object (← sub.eval key)

/-- Places are located by the same steps. -/
theorem run_locate (p : Place) : run env (locate sub p) = Run.locate (sub.run env) p := by
  cases p <;> rfl

def assigned (op : AssignOp) (location : Location) (value : Expr) (span : Span) : Steps Value :=
  match op with
  | .plain => sub.eval value
  | .compound op => do
    let old ← perform (.read location span)
    let right ← sub.eval value
    perform (.combine (.arith op) old right)

theorem run_assigned (op : AssignOp) (location : Location) (value : Expr) (span : Span) :
    run env (assigned sub op location value span) =
      Run.assigned env (sub.run env) op location value span := by
  cases op <;> rfl

def assign (op : AssignOp) (target : Place) (value : Expr) (span : Span) : Steps Value := do
  let location ← locate sub target
  let result ← assigned sub op location value span
  perform (.write location result span)
  return result

theorem run_assign (op : AssignOp) (target : Place) (value : Expr) (span : Span) :
    run env (assign sub op target value span) =
      Run.assign env (sub.run env) op target value span := by
  simp only [assign, run_bind, run_locate, run_assigned]
  rfl

def stepBefore (op : UpdateOp) (span : Span) (target : Place) :
    List (UpdateOp × Span) → Steps (Location × Value)
  | [] => do
    let location ← locate sub target
    return (location, (← perform (.step op location span)).2)
  | (op', span') :: inner => do
    perform .enter
    let stepped ← stepBefore op' span' target inner
    return (stepped.1, (← perform (.step op stepped.1 span)).2)

/-- Steps in front of a place, from the last one outwards. -/
theorem run_stepBefore (op : UpdateOp) (span : Span) (target : Place)
    (inner : List (UpdateOp × Span)) :
    run env (stepBefore sub op span target inner) =
      Run.stepBefore (sub.run env) op span target inner := by
  induction inner generalizing op span with
  | nil =>
    simp only [stepBefore, Run.stepBefore, run_bind, run_locate]
    rfl
  | cons step inner ih =>
    simp only [stepBefore, Run.stepBefore, run_bind, ih]
    rfl

def stepAfter (op : UpdateOp) (target : Place) (span : Span) : Steps Value := do
  let location ← locate sub target
  return .ofNumber? (← perform (.step op location span)).1

theorem run_stepAfter (op : UpdateOp) (target : Place) (span : Span) :
    run env (stepAfter sub op target span) = Run.stepAfter (sub.run env) op target span := by
  simp only [stepAfter, run_bind, run_locate]
  rfl

/-! ### Calls -/

def executeToken (args : List Value) (span : Span) : Steps Value := do
  match ← perform (.tokenId args) with
  | none => fail (.collaborator .tokenId)
  | some id =>
    let data ← each (fun v => perform (.copyOut v span)) (args.drop 1)
    perform (.takeIn (← perform (.askToken id data)))

/-- A token is asked for by one operation, and what comes back is imported by another. -/
theorem run_executeToken (args : List Value) (span : Span) :
    run env (executeToken args span) = Run.executeToken env.collaborators args span := by
  unfold executeToken Run.executeToken
  rw [run_bind]
  refine congrArg (Run.orCrash (Run.tokenId args) >>= ·) (funext fun id => ?_)
  cases id with
  | none => rfl
  | some id =>
    simp only [run_bind, run_each]
    rfl

def argumentText (args : List Value) (i : Nat) : Steps String :=
  match args[i]? with
  | some v => perform (.display v)
  | none => pure ""

theorem run_argumentText (args : List Value) (i : Nat) :
    run env (argumentText args i) = Run.argumentText args i := by
  unfold argumentText Run.argumentText
  cases args[i]? <;> rfl

def returnType (args : List Value) (span : Span) : Steps Datum :=
  match args[2]? with
  | some v => perform (.copyOut v span)
  | none => pure .undefined

def staticcallContract (args : List Value) (span : Span) : Steps Value := do
  let address ← argumentText args 0
  let signature ← argumentText args 1
  let type ← returnType args span
  let data ← each (fun v => perform (.copyOut v span)) (args.drop 3)
  perform (.takeIn (← perform (.askContract address signature type data)))

theorem run_staticcallContract (args : List Value) (span : Span) :
    run env (staticcallContract args span) =
      Run.staticcallContract env.collaborators args span := by
  unfold staticcallContract Run.staticcallContract returnType
  simp only [run_bind, run_argumentText, run_each]
  cases args[2]? <;> rfl

def callBuiltin (builtin : Run.Builtin) (args : List Value) (span : Span) : Steps Value :=
  match builtin with
  | .executeToken => executeToken args span
  | .staticcallContract => staticcallContract args span

theorem run_callBuiltin (builtin : Run.Builtin) (args : List Value) (span : Span) :
    run env (callBuiltin builtin args span) =
      Run.callBuiltin env.collaborators builtin args span := by
  cases builtin with
  | executeToken => exact run_executeToken env args span
  | staticcallContract => exact run_staticcallContract env args span

def callName (name : String) (args : List Value) (span : Span) : Steps Value :=
  match env.function? name with
  | some f => sub.call f args
  | none =>
    match Run.Builtin.ofName? name with
    | some builtin => callBuiltin builtin args span
    | none => fail (.reference (.undefined name) span)

theorem run_callName (name : String) (args : List Value) (span : Span) :
    run env (callName env sub name args span) = Run.callName env (sub.run env) name args span := by
  unfold callName Run.callName
  cases env.function? name with
  | some f => rfl
  | none =>
    dsimp only
    cases Run.Builtin.ofName? name with
    | some builtin => exact run_callBuiltin env builtin args span
    | none => rfl

def evalCall (callee : Expr) (arguments : List Expr) (span : Span) : Steps Value :=
  match callee with
  | .place (.ident name _) => do
    let args ← each sub.eval arguments
    callName env sub name args span
  | .place (.member object method _) => do
    let receiver ← sub.eval object
    let args ← each sub.eval arguments
    perform (.callMethod receiver method args span)
  | .place (.index object key _) => do
    let receiver ← sub.eval object
    let method ← perform (.display (← sub.eval key))
    let args ← each sub.eval arguments
    perform (.callMethod receiver method args span)
  | _ => fail (.reference (.undefined "<callee expression>") span)

/-- Calls in steps: the object of a method is evaluated before the arguments. -/
theorem run_evalCall (callee : Expr) (arguments : List Expr) (span : Span) :
    run env (evalCall env sub callee arguments span) =
      Run.evalCall env (sub.run env) callee arguments span := by
  cases callee with
  | place p =>
    cases p with
    | ident name range =>
      simp only [evalCall, run_bind, run_each, run_callName]
      rfl
    | member object method range | index object key range =>
      simp only [evalCall, run_bind, run_each]
      rfl
  | _ => rfl

def fallback (param : Param) : Steps Value :=
  match param.fallback with
  | some e => sub.eval e
  | none => pure .undefined

theorem run_fallback (param : Param) :
    run env (fallback sub param) = Run.fallback (sub.run env) param := by
  unfold fallback Run.fallback
  cases param.fallback <;> rfl

def bindParams : List Param → List Value → Steps Unit
  | [], _ => pure ()
  | param :: params, arg :: args => do
    perform (.define param.name arg)
    bindParams params args
  | param :: params, [] => do
    perform (.define param.name (← fallback sub param))
    bindParams params []

/-- Parameters in steps. -/
theorem run_bindParams (params : List Param) (args : List Value) :
    run env (bindParams sub params args) = Run.bindParams (sub.run env) params args := by
  induction params generalizing args with
  | nil => rfl
  | cons param params ih =>
    cases args with
    | cons arg args =>
      simp only [bindParams, Run.bindParams, run_bind, ih]
      rfl
    | nil =>
      simp only [bindParams, Run.bindParams, run_bind, run_fallback, ih]
      rfl

def callBody (f : Function) (args : List Value) : Steps Value := do
  bindParams sub f.params args
  return (← sub.exec (.block f.body f.bodySpan)).result

theorem run_callBody (f : Function) (args : List Value) :
    run env (callBody sub f args) = Run.callBody (sub.run env) f args := by
  simp only [callBody, run_bind, run_bindParams]
  rfl

def callFunction (f : Function) (args : List Value) : Steps Value := do
  perform .enter
  giving (inFrame (callBody sub f args))

theorem run_callFunction (f : Function) (args : List Value) :
    run env (callFunction sub f args) = Run.callFunction (sub.run env) f args := by
  simp only [callFunction, run_bind, run_giving, run_inFrame, run_callBody]
  rfl

/-! ### Expressions -/

def evalTypeof (operand : Expr) : Steps Value :=
  match operand with
  | .place (.ident name span) => do
    match ← perform (.lookup name) with
    | some _ => perform (.apply .typeof (← sub.eval (.place (.ident name span))))
    | none => return .string "undefined"
  | operand => do perform (.apply .typeof (← sub.eval operand))

/-- `typeof` looks for the name first, without an error. -/
theorem run_evalTypeof (operand : Expr) :
    run env (evalTypeof sub operand) = Run.evalTypeof (sub.run env) operand := by
  cases operand with
  | place p =>
    cases p with
    | ident name span =>
      unfold evalTypeof Run.evalTypeof
      rw [run_bind]
      refine congrArg (Run.lookup name >>= ·) (funext fun value => ?_)
      cases value <;> rfl
    | _ => rfl
  | _ => rfl

def evalLogical (op : LogicalOp) (left right : Expr) : Steps Value := do
  let v ← sub.eval left
  match op with
  | .and => if v.isTruthy then sub.eval right else return v
  | .or => if v.isTruthy then return v else sub.eval right

/-- The second operand is part of the course only if it is evaluated. -/
theorem run_evalLogical (op : LogicalOp) (left right : Expr) :
    run env (evalLogical sub op left right) = Run.evalLogical (sub.run env) op left right := by
  cases op <;> simp only [evalLogical, Run.evalLogical, run_bind, run_ite] <;> rfl

def evalSequence (last : Value) : List Expr → Steps Value
  | [] => pure last
  | e :: es => do evalSequence (← sub.eval e) es

theorem run_evalSequence (last : Value) (es : List Expr) :
    run env (evalSequence sub last es) = Run.evalSequence (sub.run env) last es := by
  induction es generalizing last with
  | nil => rfl
  | cons e es ih =>
    simp only [evalSequence, Run.evalSequence, run_bind, ih]
    rfl

def evalArray (elements : List Expr) : Steps Value := do
  perform (.makeArray (← each sub.eval elements))

theorem run_evalArray (elements : List Expr) :
    run env (evalArray sub elements) = Run.evalArray (sub.run env) elements := by
  simp only [evalArray, run_bind, run_each]
  rfl

def evalObject (entries : List (String × Expr)) : Steps Value := do
  let values ← each (fun entry => do return (entry.1, ← sub.eval entry.2)) entries
  perform (.makeObject values)

theorem run_evalObject (entries : List (String × Expr)) :
    run env (evalObject sub entries) = Run.evalObject (sub.run env) entries := by
  simp only [evalObject, run_bind, run_each]
  rfl

def exprBody (e : Expr) : Steps Value :=
  match e with
  | .literal value _ => pure (.ofLiteral value)
  | .place p => do perform (.read (← locate sub p) p.span)
  | .array elements _ => evalArray sub elements
  | .object entries _ => evalObject sub entries
  | .unary .typeof operand _ => evalTypeof sub operand
  | .unary op operand _ => do perform (.apply op (← sub.eval operand))
  | .updateBefore op span inner target => do return (← stepBefore sub op span target inner).2
  | .updateAfter op target span => stepAfter sub op target span
  | .binary op left right _ => do
    let left ← sub.eval left
    let right ← sub.eval right
    perform (.combine op left right)
  | .logical op left right _ => evalLogical sub op left right
  | .assign op target value span => assign sub op target value span
  | .conditional test consequent alternate _ => do
    if (← sub.eval test).isTruthy then sub.eval consequent else sub.eval alternate
  | .sequence parts _ => evalSequence sub .undefined parts
  | .call callee arguments span => evalCall env sub callee arguments span

/-- Expressions in steps: one case for each kind. -/
theorem run_exprBody (e : Expr) :
    run env (exprBody env sub e) = Run.exprBody env (sub.run env) e := by
  -- each kind of expression is written out above; here the two sides only have to be matched
  cases e with
  | literal value span => rfl
  | place p =>
    simp only [exprBody, run_bind, run_locate]
    rfl
  | array elements span => exact run_evalArray env sub elements
  | object entries span => exact run_evalObject env sub entries
  | unary op operand span =>
    cases op with
    | typeof => exact run_evalTypeof env sub operand
    | _ => rfl
  | updateBefore op span inner target =>
    simp only [exprBody, run_bind, run_stepBefore]
    rfl
  | updateAfter op target span => exact run_stepAfter env sub op target span
  | binary op left right span => rfl
  | logical op left right span => exact run_evalLogical env sub op left right
  | assign op target value span => exact run_assign env sub op target value span
  | conditional test consequent alternate span =>
    simp only [exprBody, run_bind, run_ite]
    rfl
  | sequence parts span => exact run_evalSequence env sub .undefined parts
  | call callee arguments span => exact run_evalCall env sub callee arguments span

def evalExpr (e : Expr) : Steps Value := do
  perform .enter
  giving (exprBody env sub e)

/-- An expression pays for its node before anything else. -/
theorem run_evalExpr (e : Expr) :
    run env (evalExpr env sub e) = Run.evalExpr env (sub.run env) e := by
  simp only [evalExpr, run_bind, run_giving, run_exprBody]
  rfl

/-! ### Statements -/

def declareOne (d : Declarator) : Steps Unit :=
  match d.init with
  | some e => do perform (.define d.name (← sub.eval e))
  | none => do
    if ← perform (.isLocal d.name) then return ()
    else perform (.define d.name .undefined)

theorem run_declareOne (d : Declarator) :
    run env (declareOne sub d) = Run.declareOne (sub.run env) d := by
  unfold declareOne Run.declareOne
  cases d.init with
  | some e => rfl
  | none =>
    simp only [run_bind, run_ite]
    rfl

def declare : List Declarator → Steps Unit
  | [] => pure ()
  | d :: rest => do
    declareOne sub d
    declare rest

/-- Declarations in steps. -/
theorem run_declare (declarators : List Declarator) :
    run env (declare sub declarators) = Run.declare (sub.run env) declarators := by
  induction declarators with
  | nil => rfl
  | cons d rest ih =>
    simp only [declare, run_bind, run_declareOne, ih]
    rfl

def execBlock : List Stmt → Steps Completion
  | [] => pure .normal
  | s :: rest => do
    match ← sub.exec s with
    | .normal => execBlock rest
    | completion => return completion

/-- Statements one after the other, in steps. -/
theorem run_execBlock (body : List Stmt) :
    run env (execBlock sub body) = Run.execBlock (sub.run env) body := by
  induction body with
  | nil => rfl
  | cons s rest ih =>
    unfold execBlock Run.execBlock
    rw [run_bind]
    refine congrArg ((sub.run env).exec s >>= ·) (funext fun completion => ?_)
    cases completion with
    | normal => exact ih
    | _ => rfl

def holds (test : Option Expr) : Steps Bool :=
  match test with
  | some e => do return (← sub.eval e).isTruthy
  | none => pure true

theorem run_holds (test : Option Expr) :
    run env (holds sub test) = Run.holds (sub.run env) test := by
  cases test <;> rfl

def finishRound (update : Option Expr) : Steps Unit :=
  match update with
  | some e => do let _ ← sub.eval e
  | none => pure ()

theorem run_finishRound (update : Option Expr) :
    run env (finishRound sub update) = Run.finishRound (sub.run env) update := by
  cases update <;> rfl

def endRound (update : Option Expr) : Completion → Steps (Option Completion)
  | .breakLoop => pure (some .normal)
  | .returned v => pure (some (.returned v))
  | .normal | .continueLoop => do
    finishRound sub update
    return none

def loopRound (test update : Option Expr) (body : Stmt) : Steps (Option Completion) := do
  if ← holds sub test then endRound sub update (← sub.exec body)
  else return some .normal

theorem run_loopRound (test update : Option Expr) (body : Stmt) :
    run env (loopRound sub test update body) = Run.loopRound (sub.run env) test update body := by
  simp only [loopRound, Run.loopRound, run_bind, run_holds, run_ite]
  refine congrArg (Run.holds (sub.run env) test >>= ·) (funext fun goesOn => ?_)
  split
  · refine congrArg ((sub.run env).exec body >>= ·) (funext fun completion => ?_)
    cases completion with
    | normal | continueLoop =>
      simp only [endRound, run_bind, run_finishRound]
      rfl
    | breakLoop | returned v => rfl
  · rfl

def repeatLoop (test update : Option Expr) (body : Stmt) : Nat → Steps Completion
  | 0 => unfinished
  | rounds + 1 => do
    match ← loopRound sub test update body with
    | some completion => return completion
    | none => repeatLoop test update body rounds

theorem run_repeatLoop (test update : Option Expr) (body : Stmt) (rounds : Nat) :
    run env (repeatLoop sub test update body rounds) =
      Run.repeatLoop (sub.run env) test update body rounds := by
  induction rounds with
  | zero => rfl
  | succ rounds ih =>
    unfold repeatLoop Run.repeatLoop
    rw [run_bind, run_loopRound]
    refine congrArg (Run.loopRound (sub.run env) test update body >>= ·) (funext fun ended => ?_)
    cases ended with
    | some completion => rfl
    | none => exact ih

def startLoop (init : Option ForInit) : Steps Unit :=
  match init with
  | none => pure ()
  | some (.declare declarators span) => do let _ ← sub.exec (.declare declarators span)
  | some (.evaluate e) => do let _ ← sub.eval e

theorem run_startLoop (init : Option ForInit) :
    run env (startLoop sub init) = Run.startLoop (sub.run env) init := by
  cases init with
  | none => rfl
  | some init => cases init <;> rfl

def returned (argument : Option Expr) : Steps Completion :=
  match argument with
  | some e => do return .returned (← sub.eval e)
  | none => pure (.returned .undefined)

theorem run_returned (argument : Option Expr) :
    run env (returned sub argument) = Run.returned (sub.run env) argument := by
  cases argument <;> rfl

def stmtBody (s : Stmt) : Steps Completion :=
  match s with
  | .declare declarators _ => do
    declare sub declarators
    return .normal
  | .block body _ => execBlock sub body
  | .ifThen test consequent _ => do
    if (← sub.eval test).isTruthy then sub.exec consequent else return .normal
  | .ifElse test consequent alternate _ => do
    if (← sub.eval test).isTruthy then sub.exec consequent else sub.exec alternate
  | .forLoop init test update body _ => do
    startLoop sub init
    repeatLoop sub test update body sub.rounds
  | .whileLoop test body _ => repeatLoop sub (some test) none body sub.rounds
  | .breakLoop _ => pure .breakLoop
  | .continueLoop _ => pure .continueLoop
  | .returnValue argument _ => returned sub argument
  | .empty _ => pure .normal
  | .expression e _ => do
    let _ ← sub.eval e
    return .normal

/-- Statements in steps: one case for each kind. -/
theorem run_stmtBody (s : Stmt) :
    run env (stmtBody sub s) = Run.stmtBody (sub.run env) s := by
  cases s with
  | declare declarators span =>
    simp only [stmtBody, run_bind, run_declare]
    rfl
  | block body span => exact run_execBlock env sub body
  | ifThen test consequent span | ifElse test consequent alternate span =>
    simp only [stmtBody, run_bind, run_ite]
    rfl
  | forLoop init test update body span =>
    simp only [stmtBody, run_bind, run_startLoop, run_repeatLoop]
    rfl
  | whileLoop test body span => exact run_repeatLoop env sub (some test) none body sub.rounds
  | returnValue argument span => exact run_returned env sub argument
  | breakLoop span | continueLoop span | empty span | expression e span => rfl

def execStmt (s : Stmt) : Steps Completion := do
  perform .enter
  stmtBody sub s

/-- A statement pays for its node before anything else. -/
theorem run_execStmt (s : Stmt) :
    run env (execStmt sub s) = Run.execStmt (sub.run env) s := by
  simp only [execStmt, run_bind, run_stmtBody]
  rfl

/-! ### All levels -/

/-- Evaluation down to at most `levels` further levels, in steps. -/
def evaluators : Nat → Evaluators
  | 0 => ⟨fun _ => unfinished, fun _ => unfinished, fun _ _ => unfinished, 0⟩
  | levels + 1 =>
    ⟨evalExpr env (evaluators levels), execStmt (evaluators levels),
      callFunction (evaluators levels), levels + 1⟩

/-- Of what stays the same in a run, evaluation in steps looks at the functions only. -/
theorem evaluators_congr {env' : Env} (h : env'.functions = env.functions) (levels : Nat) :
    evaluators env' levels = evaluators env levels := by
  have hfunction : env'.function? = env.function? := by
    funext name
    rw [EnvOf.function?, EnvOf.function?, h]
  induction levels with
  | zero => rfl
  | succ levels ih =>
    have hcall : callName env' (evaluators env levels) = callName env (evaluators env levels) := by
      unfold callName
      rw [hfunction]
    have heval : evalExpr env' (evaluators env levels) = evalExpr env (evaluators env levels) := by
      unfold evalExpr exprBody evalCall
      rw [hcall]
    rw [evaluators, evaluators, ih, heval]

/-- The rules in steps, tied to themselves as often, run as the rules do. -/
theorem run_evaluators (levels : Nat) :
    (evaluators env levels).run env = MeteredScript.evaluators env 0 levels := by
  -- a level more is one rule more on both sides
  induction levels with
  | zero => rfl
  | succ levels ih =>
    rw [evaluators_succ, ← ih]
    simp only [evaluators, Evaluators.run, Evaluators.tie, run_evalExpr, run_execStmt,
      run_callFunction]

/-! ### Programs -/

def bindIdentifiers : List (String × Datum) → Steps Unit
  | [] => pure ()
  | (name, d) :: rest => do
    perform (.bindGlobal name (← perform (.takeIn d)))
    bindIdentifiers rest

/-- Names from outside in steps. -/
theorem run_bindIdentifiers (identifiers : List (String × Datum)) :
    run env (bindIdentifiers identifiers) = Run.bindIdentifiers identifiers := by
  induction identifiers with
  | nil => rfl
  | cons identifier rest ih =>
    simp only [bindIdentifiers, Run.bindIdentifiers, run_bind, ih]
    rfl

def ofOutcome {α : Type} : Except Error α → Steps α
  | .ok a => pure a
  | .error e => fail e

theorem run_ofOutcome {α : Type} (outcome : Except Error α) :
    run env (ofOutcome outcome) = Run.ofOutcome outcome := by
  cases outcome <;> rfl

def program (program : Program) (context : RunContext) (levels : Nat) : Steps Datum := do
  bindIdentifiers context.identifiers
  let f ← ofOutcome (program.entry context.start)
  let args ← each (fun d => perform (.takeIn d)) context.args
  let v ← (evaluators env levels).call f args
  perform (.copyOut v f.span)

/-- A whole program in steps. -/
theorem run_program (p : Program) (context : RunContext) (levels : Nat) :
    run env (program env p context levels) = Run.program p env context levels := by
  have hcall : ∀ f args, run env ((evaluators env levels).call f args) =
      (MeteredScript.evaluators env 0 levels).call f args := by
    intro f args
    rw [← run_evaluators]
    rfl
  simp only [program, run_bind, run_bindIdentifiers, run_ofOutcome, run_each, hcall]
  rfl

end Steps

/-! ## The course of a run -/

/-- What stays the same throughout a run of a program. -/
def Program.env (program : Program) (limits : Limits) (collaborators : Collaborators) : Env :=
  ⟨FunctionTable.ofList program.functions, collaborators, limits.maxStringLength⟩

def Limits.start (limits : Limits) : State := { meter := { limit := limits.stepBudget } }

def Program.steps (program : Program) (context : RunContext) (limits : Limits)
    (collaborators : Collaborators) : Steps Datum :=
  Steps.program (program.env limits collaborators) program context (limits.stepBudget + 1)

/-- The operations that a run of a program performs. -/
def Program.events (program : Program) (context : RunContext) (limits : Limits)
    (collaborators : Collaborators) : List Event :=
  (program.steps context limits collaborators).events (program.env limits collaborators) limits.start

/-- What comes of the steps of a run is its outcome. -/
theorem Program.run_eq_steps (program : Program) (context : RunContext) (limits : Limits)
    (collaborators : Collaborators) :
    program.run context limits collaborators =
      .ofResult ((program.steps context limits collaborators).run
        (program.env limits collaborators) limits.start) := by
  unfold Program.steps
  rw [Steps.run_program]
  rfl

/-- A program with a result has gone through all its steps. -/
theorem Program.steps_eq_of_result {program : Program} {context : RunContext} {limits : Limits}
    {collaborators : Collaborators} {d : Datum}
    (h : (program.run context limits collaborators).result = .ok d) :
    ∃ last, (program.steps context limits collaborators).run (program.env limits collaborators)
        limits.start = .ok d last ∧
      (program.run context limits collaborators).used = last.meter.used := by
  rw [program.run_eq_steps] at h ⊢
  cases hending : (program.steps context limits collaborators).run (program.env limits collaborators)
      limits.start with
  | error halt last =>
    rw [hending] at h
    cases h
  | ok d' last =>
    rw [hending] at h
    cases h
    exact ⟨last, rfl, rfl⟩

/-- The operations of a run take it from the start to the state that its steps end in. -/
theorem Program.linked_steps (program : Program) (context : RunContext) (limits : Limits)
    (collaborators : Collaborators) :
    Linked limits.start (program.events context limits collaborators)
      (Run.final ((program.steps context limits collaborators).run
        (program.env limits collaborators) limits.start)) :=
  Steps.linked_events _ _

/-- The events of a program are linked, from the state it starts in to the one it stops in. -/
theorem Program.linked_events (program : Program) (context : RunContext) (limits : Limits)
    (collaborators : Collaborators) :
    ∃ ending, program.run context limits collaborators = .ofResult ending ∧
      Linked limits.start (program.events context limits collaborators) (Run.final ending) :=
  ⟨_, program.run_eq_steps context limits collaborators,
    program.linked_steps context limits collaborators⟩

end MeteredScript
