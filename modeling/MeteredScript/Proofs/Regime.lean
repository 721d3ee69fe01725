import MeteredScript.Proofs.Nodes
import MeteredScript.Proofs.Steps

namespace MeteredScript

/-! # What runs keep

What a run holds comes from literals, from data of outside, and from operations on what it holds
already. A `Regime` says what is to hold of states, of values on a heap and of data. If every
operation keeps it (`Regime.Kept`), then so does every rule, and every operation that a run performs
finds a sound state and is given values that fit there (`Regime.Kept.program`).
-/

/-! ## What operations are given, and what they give -/

/-- The values that a location consists of; text that is a key refers to nothing. -/
def Location.operands : Location → List Value
  | .name _ => []
  | .member object (.string _) => [object]
  | .member object key => [object, key]

namespace Operation

/-- The values that an operation is given. -/
def operands : {α : Type} → Operation α → List Value
  | _, define _ value | _, bindGlobal _ value => [value]
  | _, read location _ => location.operands
  | _, write location value _ => value :: location.operands
  | _, step _ location _ => location.operands
  | _, combine _ left right => [left, right]
  | _, apply _ v => [v]
  | _, display v => [v]
  | _, makeArray elements => elements
  | _, makeObject entries => entries.map Prod.snd
  | _, callMethod receiver _ args _ => receiver :: args
  | _, tokenId args => args
  | _, copyOut v _ => [v]
  | _, give v => [v]
  | _, _ => []

/-- The data that an operation is given to copy in. -/
def taken : {α : Type} → Operation α → List Datum
  | _, takeIn d => [d]
  | _, _ => []

def values : {α : Type} → Operation α → α → List Value
  | _, lookup _, value => value.toList
  | _, read _ _, value => [value]
  | _, step _ _ _, stepped => [stepped.2]
  | _, combine _ _ _, value => [value]
  | _, apply _ _, value => [value]
  | _, makeArray _, value | _, makeObject _, value => [value]
  | _, callMethod _ _ _ _, value => [value]
  | _, takeIn _, value => [value]
  | _, _, _ => []

/-- The data that collaborators answer with. -/
def answered : {α : Type} → Operation α → α → List Datum
  | _, askToken _ _, d | _, askContract _ _ _ _, d => [d]
  | _, _, _ => []

/-- The data that an operation copies out. -/
def issued : {α : Type} → Operation α → α → List Datum
  | _, copyOut _ _, d => [d]
  | _, _, _ => []

end Operation

/-- Whether a value is neither text nor an array nor an object. -/
def Value.isSimple : Value → Bool
  | .number _ | .nan | .boolean _ | .null | .undefined => true
  | .string _ | .array _ | .object _ => false

theorem Value.isSimple_ofNumber? (n : Option Decimal) : (Value.ofNumber? n).isSimple = true := by
  cases n <;> rfl

/-- What an operator in front of a value gives is simple, or the name of a type. -/
theorem Value.isSimple_or_typeName_of_unary {op : UnaryOp} {v w : Value} (h : v.unary op = .ok w) :
    w.isSimple = true ∨ w = .string v.typeName := by
  cases op with
  | plus | minus =>
    obtain ⟨n, -, hw⟩ := Crash.exists_of_bind_eq_ok h
    cases hw
    exact .inl (Value.isSimple_ofNumber? _)
  | bitNot =>
    obtain ⟨n, -, hw⟩ := Crash.exists_of_bind_eq_ok h
    cases hw
    exact .inl rfl
  | not | void =>
    cases h
    exact .inl rfl
  | typeof =>
    cases h
    exact .inr rfl

/-! ## Regimes -/

/-- What is to hold in a run. -/
structure Regime where
  /-- What holds of every state. -/
  Sound : State → Prop
  /-- What holds of every value, on the heap. -/
  Fits : Heap → Value → Prop
  /-- How the heap may change. -/
  Grows : Heap → Heap → Prop
  /-- What holds of the data that comes in. -/
  Admits : Datum → Prop
  /-- What holds of the data that goes out, on the heap it is copied from. -/
  Issues : Heap → Datum → Prop

namespace Regime

variable (R : Regime) {env : Env} {α β : Type}

/-- What an operation may rely on. -/
structure Ready (op : Operation α) (s : State) : Prop where
  sound : R.Sound s
  operands : ∀ v ∈ op.operands, R.Fits s.heap v
  taken : ∀ d ∈ op.taken, R.Admits d

/-- A regime that every operation keeps. -/
structure Kept (env : Env) : Prop where
  refl (heap : Heap) : R.Grows heap heap
  trans {heap heap' heap'' : Heap} :
    R.Grows heap heap' → R.Grows heap' heap'' → R.Grows heap heap''
  fits_of_grows {heap heap' : Heap} {v : Value} :
    R.Grows heap heap' → R.Fits heap v → R.Fits heap' v
  simple {heap : Heap} {v : Value} : v.isSimple = true → R.Fits heap v
  typeName (heap : Heap) (v : Value) : R.Fits heap (.string v.typeName)
  push {s : State} : R.Sound s → R.Sound { s with frames := s.frames.push }
  pop {s : State} : R.Sound s → R.Sound { s with frames := s.frames.pop }
  sound {α : Type} {op : Operation α} {s : State} :
    R.Ready op s → R.Sound (Run.final (op.perform env s))
  grows {α : Type} {op : Operation α} {s : State} :
    R.Ready op s → R.Grows s.heap (Run.final (op.perform env s)).heap
  values {α : Type} {op : Operation α} {s t : State} {a : α} :
    R.Ready op s → op.perform env s = .ok a t → ∀ v ∈ op.values a, R.Fits t.heap v
  answered {α : Type} {op : Operation α} {s t : State} {a : α} :
    R.Ready op s → op.perform env s = .ok a t → ∀ d ∈ op.answered a, R.Admits d
  issued {α : Type} {op : Operation α} {s t : State} {a : α} :
    R.Ready op s → op.perform env s = .ok a t → ∀ d ∈ op.issued a, R.Issues t.heap d

/-- A computation that keeps a regime from a state on, and gives what satisfies `Q`. -/
structure Keeps (env : Env) (x : Steps α) (s : State) (Q : Heap → α → Prop) : Prop where
  events : ∀ event ∈ x.events env s, R.Ready event.operation event.before
  sound : R.Sound (Run.final (x.run env s))
  grows : R.Grows s.heap (Run.final (x.run env s)).heap
  result {a : α} {t : State} : x.run env s = .ok a t → Q t.heap a

def FitsAll (heap : Heap) (values : List Value) : Prop := ∀ v ∈ values, R.Fits heap v

variable {R}

theorem FitsAll.nil (heap : Heap) : R.FitsAll heap [] := fun _ hv => absurd hv List.not_mem_nil

variable {heap : Heap} {v : Value}

theorem FitsAll.cons {values : List Value} (hv : R.Fits heap v) (hvalues : R.FitsAll heap values) :
    R.FitsAll heap (v :: values) :=
  List.forall_mem_cons.mpr ⟨hv, hvalues⟩

theorem FitsAll.one (hv : R.Fits heap v) : R.FitsAll heap [v] :=
  .cons hv (.nil heap)

theorem FitsAll.two {w : Value} (hv : R.Fits heap v) (hw : R.Fits heap w) : R.FitsAll heap [v, w] :=
  .cons hv (.one hw)

theorem Ready.of_operands {op : Operation α} {s : State} (hs : R.Sound s)
    (hoperands : R.FitsAll s.heap op.operands) (htaken : op.taken = []) : R.Ready op s :=
  ⟨hs, hoperands, fun _ hd => absurd (htaken ▸ hd) List.not_mem_nil⟩

theorem Keeps.mono {x : Steps α} {s : State} {Q Q' : Heap → α → Prop} (hx : R.Keeps env x s Q)
    (hQ : ∀ heap a, Q heap a → Q' heap a) : R.Keeps env x s Q' :=
  ⟨hx.events, hx.sound, hx.grows, fun ha => hQ _ _ (hx.result ha)⟩

/-- What evaluation comes to below a node with the property: only functions with the property are
called, and only literals that fit occur. -/
structure Covers (R : Regime) (env : Env) (P : Outline → Prop) : Prop where
  inherited : NodeTable.Inherited P
  functions {name : String} {f : Function} : env.function? name = some f → P f.outline
  literals {value : Literal} {span : Span} :
    P ((Expr.literal value span).outline 0) → ∀ heap, R.Fits heap (.ofLiteral value)

/-- An evaluation that keeps a regime on everything whose outline has the property. -/
structure KeptBy (R : Regime) (env : Env) (P : Outline → Prop) (sub : Steps.Evaluators) : Prop where
  eval {e : Expr} : P (e.outline 0) → ∀ {s}, R.Sound s → R.Keeps env (sub.eval e) s R.Fits
  exec {b : Stmt} : P (b.outline 0) → ∀ {s}, R.Sound s →
    R.Keeps env (sub.exec b) s fun heap completion => R.Fits heap completion.result
  call {f : Function} : P f.outline → ∀ {args s}, R.Sound s → R.FitsAll s.heap args →
    R.Keeps env (sub.call f args) s R.Fits

namespace Kept

variable (h : R.Kept env)
include h

/-! ## Computations -/

theorem fitsAll_of_grows {heap heap' : Heap} {values : List Value} (hgrows : R.Grows heap heap')
    (hvalues : R.FitsAll heap values) : R.FitsAll heap' values :=
  fun v hv => h.fits_of_grows hgrows (hvalues v hv)

variable {Q : Heap → α → Prop} {args : List Value} {test update : Option Expr} {target : Place}
  {span : Span} {s : State} {v : Value}

/-- A result without steps has to fit where it is given. -/
theorem pure {a : α} (hs : R.Sound s) (ha : Q s.heap a) : R.Keeps env (Pure.pure a) s Q := by
  refine ⟨fun _ hevent => ?_, hs, h.refl _, ?_⟩
  · cases hevent
  · rintro _ _ ⟨⟩
    exact ha

theorem fail (hs : R.Sound s) (error : Error) : R.Keeps env (.fail error) s Q := by
  refine ⟨fun _ hevent => ?_, hs, h.refl _, ?_⟩
  · cases hevent
  · rintro _ _ ⟨⟩

/-- Running out of levels has nothing to keep. -/
theorem unfinished (hs : R.Sound s) : R.Keeps env .unfinished s Q := by
  refine ⟨fun _ hevent => ?_, hs, h.refl _, ?_⟩
  · cases hevent
  · rintro _ _ ⟨⟩

/-- The second part starts in a sound state, on a heap that has grown: what fitted before still does. -/
theorem bind {x : Steps α} {f : α → Steps β} {Q' : Heap → β → Prop} (hx : R.Keeps env x s Q)
    (hf : ∀ a t, R.Sound t → R.Grows s.heap t.heap → Q t.heap a → R.Keeps env (f a) t Q') :
    R.Keeps env (x >>= f) s Q' := by
  have hsound := hx.sound
  have hgrows := hx.grows
  -- the events of the second part are there only behind a result
  cases hr : x.run env s with
  | ok a t =>
    rw [hr] at hsound hgrows
    have hnext := hf a t hsound hgrows (hx.result hr)
    have hrun : (x >>= f).run env s = (f a).run env t := Run.bind_of_ok hr
    refine ⟨fun event hevent => ?_, ?_, ?_, fun hb => ?_⟩
    · rw [Steps.events_bind_ok hr] at hevent
      rcases List.mem_append.mp hevent with hfirst | hsecond
      · exact hx.events event hfirst
      · exact hnext.events event hsecond
    · rw [hrun]
      exact hnext.sound
    · rw [hrun]
      exact h.trans hgrows hnext.grows
    · exact hnext.result (hrun ▸ hb)
  | error halt t =>
    rw [hr] at hsound hgrows
    have hrun : (x >>= f).run env s = .error halt t := Run.bind_of_error hr
    refine ⟨fun event hevent => ?_, ?_, ?_, fun hb => ?_⟩
    · rw [Steps.events_bind_error hr] at hevent
      exact hx.events event hevent
    · rw [hrun]
      exact hsound
    · rw [hrun]
      exact hgrows
    · rw [hrun] at hb
      cases hb

/-- An operation that is given what fits performs as the regime demands. -/
theorem perform {op : Operation α} (hop : R.Ready op s) :
    R.Keeps env (.perform op) s fun heap a =>
      R.FitsAll heap (op.values a) ∧ (∀ d ∈ op.answered a, R.Admits d) ∧
        ∀ d ∈ op.issued a, R.Issues heap d := by
  refine ⟨fun event hevent => ?_, h.sound hop, h.grows hop,
    fun ha => ⟨h.values hop ha, h.answered hop ha, h.issued hop ha⟩⟩
  rcases List.mem_singleton.mp hevent with rfl
  exact hop

theorem performValue {op : Operation Value} (hop : R.Ready op s)
    (hvalues : ∀ v, op.values v = [v]) : R.Keeps env (.perform op) s R.Fits := by
  refine (h.perform hop).mono fun heap v hv => hv.1 v ?_
  rw [hvalues]
  exact List.mem_cons_self

theorem performBare {op : Operation α} (hs : R.Sound s) (hoperands : op.operands = [])
    (htaken : op.taken = []) : R.Keeps env (.perform op) s fun _ _ => True :=
  (h.perform (.of_operands hs (hoperands ▸ .nil _) htaken)).mono fun _ _ _ => trivial

theorem define (hs : R.Sound s) (name : String) {value : Value} (hvalue : R.Fits s.heap value) :
    R.Keeps env (.perform (.define name value)) s fun _ _ => True := by
  have hready : R.Ready (.define name value) s := .of_operands hs (.one hvalue) rfl
  exact (h.perform hready).mono fun _ _ _ => trivial

/-- What is admitted fits once it has been taken in. -/
theorem takeIn (hs : R.Sound s) {d : Datum} (hd : R.Admits d) :
    R.Keeps env (.perform (.takeIn d)) s R.Fits :=
  h.performValue ⟨hs, FitsAll.nil _, List.forall_mem_singleton.mpr hd⟩ fun _ => rfl

/-- What fits may be issued once it has been copied out. -/
theorem copyOut (hs : R.Sound s) (hv : R.Fits s.heap v) (span : Span) :
    R.Keeps env (.perform (.copyOut v span)) s R.Issues := by
  have hready : R.Ready (.copyOut v span) s := .of_operands hs (.one hv) rfl
  exact (h.perform hready).mono fun _ d hd => hd.2.2 d List.mem_cons_self

theorem display (hs : R.Sound s) (hv : R.Fits s.heap v) :
    R.Keeps env (.perform (.display v)) s fun _ _ => True := by
  have hready : R.Ready (.display v) s := .of_operands hs (.one hv) rfl
  exact (h.perform hready).mono fun _ _ _ => trivial

/-- Giving a value makes it one of the values of the course. -/
theorem giving {x : Steps Value} (hx : R.Keeps env x s R.Fits) :
    R.Keeps env (Steps.giving x) s R.Fits := by
  refine h.bind hx fun v t ht _ hv => ?_
  have hready : R.Ready (.give v) t := .of_operands ht (.one hv) rfl
  exact h.bind (h.perform hready) fun _ u hu hgrows _ => h.pure hu (h.fits_of_grows hgrows hv)

/-- The frame of a call goes away; heap and values stay. -/
theorem inFrame {x : Steps α} (hx : R.Keeps env x { s with frames := s.frames.push } Q) :
    R.Keeps env (.inFrame x) s Q := by
  have hsound := h.pop hx.sound
  have hgrows := hx.grows
  -- the frame is taken away from either state
  cases hr : x.run env { s with frames := s.frames.push } with
  | ok a t =>
    have hrun : (Steps.inFrame x).run env s = .ok a { t with frames := t.frames.pop } := by
      rw [Steps.run_inFrame, Run.inFrame, hr]
    rw [hr] at hsound hgrows
    refine ⟨hx.events, hrun ▸ hsound, hrun ▸ hgrows, fun hb => ?_⟩
    rw [hrun] at hb
    cases hb
    have ha := hx.result hr
    exact ha
  | error halt t =>
    have hrun : (Steps.inFrame x).run env s = .error halt { t with frames := t.frames.pop } := by
      rw [Steps.run_inFrame, Run.inFrame, hr]
    rw [hr] at hsound hgrows
    refine ⟨hx.events, hrun ▸ hsound, hrun ▸ hgrows, fun hb => ?_⟩
    rw [hrun] at hb
    cases hb

/-- What holds of a result must stay true while the rest of the list is gone through. -/
theorem each {f : α → Steps β} {l : List α} {Q : Heap → β → Prop} (hs : R.Sound s)
    (hQ : ∀ {heap heap' b}, R.Grows heap heap' → Q heap b → Q heap' b)
    (hf : ∀ a ∈ l, ∀ t, R.Sound t → R.Grows s.heap t.heap → R.Keeps env (f a) t Q) :
    R.Keeps env (Steps.each f l) s fun heap bs => ∀ b ∈ bs, Q heap b := by
  induction l generalizing s with
  | nil => exact h.pure hs fun _ hb => absurd hb List.not_mem_nil
  | cons a rest ih =>
    refine h.bind (hf a List.mem_cons_self s hs (h.refl _)) fun b t ht hgrows hb => ?_
    refine h.bind (ih ht fun a' ha' u hu hgrows' => ?_) fun bs u hu hgrows' hbs => ?_
    · exact hf a' (List.mem_cons_of_mem _ ha') u hu (h.trans hgrows hgrows')
    · exact h.pure hu (List.forall_mem_cons.mpr ⟨hQ hgrows' hb, hbs⟩)

theorem copyOutAll (hs : R.Sound s) {values : List Value} (hvalues : R.FitsAll s.heap values)
    (span : Span) :
    R.Keeps env (Steps.each (fun v => .perform (.copyOut v span)) values) s fun _ _ => True := by
  have hcopies := h.each (Q := fun _ _ => True) hs (fun _ _ => trivial) fun v hv t ht hgrows =>
    (h.copyOut ht (h.fits_of_grows hgrows (hvalues v hv)) span).mono fun _ _ _ => trivial
  exact hcopies.mono fun _ _ _ => trivial

/-- Puts an operator in front of a value. -/
theorem apply (hs : R.Sound s) (hv : R.Fits s.heap v) (op : UnaryOp) :
    R.Keeps env (.perform (.apply op v)) s R.Fits :=
  h.performValue (.of_operands hs (.one hv) rfl) fun _ => rfl

/-! ## Rules -/

variable {P : Outline → Prop} {sub : Steps.Evaluators} (hcovers : R.Covers env P)
  (hsub : R.KeptBy env P sub)
include hsub

/-! ### Places -/

/-- The operands of a place are evaluated and fit. -/
theorem locate {p : Place} (hp : ∀ c ∈ p.operands, P (c.outline 0)) (hs : R.Sound s) :
    R.Keeps env (Steps.locate sub p) s fun heap location => R.FitsAll heap location.operands := by
  cases p with
  | ident name span => exact h.pure hs (.nil _)
  | member object name span =>
    refine h.bind (hsub.eval (hp object List.mem_cons_self) hs) fun v t ht _ hv => ?_
    exact h.pure ht (.one hv)
  | index object key span =>
    refine h.bind (hsub.eval (hp object List.mem_cons_self) hs) fun v t ht _ hv => ?_
    refine h.bind (hsub.eval (hp key (List.mem_cons_of_mem _ List.mem_cons_self)) ht)
      fun k u hu hgrows hk => ?_
    have hv' := h.fits_of_grows hgrows hv
    refine h.pure hu ?_
    cases k with
    | string text => exact .one hv'
    | _ => exact .two hv' hk

/-- The value to be assigned may be computed from what the place holds. -/
theorem assigned {op : AssignOp} {location : Location} {value : Expr} (hvalue : P (value.outline 0))
    (hs : R.Sound s) (hlocation : R.FitsAll s.heap location.operands) :
    R.Keeps env (Steps.assigned sub op location value span) s R.Fits := by
  cases op with
  | plain => exact hsub.eval hvalue hs
  | compound op =>
    refine h.bind (h.performValue (.of_operands hs hlocation rfl) fun _ => rfl)
      fun old t ht _ hold => ?_
    refine h.bind (hsub.eval hvalue ht) fun right u hu hgrows hright => ?_
    exact h.performValue (.of_operands hu (.two (h.fits_of_grows hgrows hold) hright) rfl)
      fun _ => rfl

theorem assign {op : AssignOp} {value : Expr} (htarget : ∀ c ∈ target.operands, P (c.outline 0))
    (hvalue : P (value.outline 0)) (hs : R.Sound s) :
    R.Keeps env (Steps.assign sub op target value span) s R.Fits := by
  refine h.bind (h.locate hsub htarget hs) fun location t ht _ hlocation => ?_
  refine h.bind (h.assigned hsub hvalue ht hlocation) fun result u hu hgrows hresult => ?_
  have hoperands := FitsAll.cons hresult (h.fitsAll_of_grows hgrows hlocation)
  refine h.bind (h.perform (.of_operands hu hoperands rfl)) fun _ w hw hgrows' _ => ?_
  exact h.pure hw (h.fits_of_grows hgrows' hresult)

/-- Every step leaves a number at the same place. -/
theorem stepBefore {op : UpdateOp} {inner : List (UpdateOp × Span)}
    (htarget : ∀ c ∈ target.operands, P (c.outline 0)) (hs : R.Sound s) :
    R.Keeps env (Steps.stepBefore sub op span target inner) s fun heap stepped =>
      R.FitsAll heap stepped.1.operands ∧ R.Fits heap stepped.2 := by
  have hstep : ∀ {op span location t}, R.Sound t → R.FitsAll t.heap location.operands →
      R.Keeps env (do return (location, (← Steps.perform (.step op location span)).2)) t
        fun heap stepped => R.FitsAll heap stepped.1.operands ∧ R.Fits heap stepped.2 := by
    intro op span location t ht hlocation
    refine h.bind (h.perform (.of_operands ht hlocation rfl)) fun stepped u hu hgrows hvalues => ?_
    exact h.pure hu ⟨h.fitsAll_of_grows hgrows hlocation, hvalues.1 _ List.mem_cons_self⟩
  induction inner generalizing op span s with
  | nil => exact h.bind (h.locate hsub htarget hs) fun location t ht _ hlocation => hstep ht hlocation
  | cons step inner ih =>
    refine h.bind (h.performBare hs rfl rfl) fun _ t ht _ _ => ?_
    exact h.bind (ih ht) fun stepped u hu _ hstepped => hstep hu hstepped.1

theorem stepAfter {op : UpdateOp} (htarget : ∀ c ∈ target.operands, P (c.outline 0))
    (hs : R.Sound s) : R.Keeps env (Steps.stepAfter sub op target span) s R.Fits := by
  refine h.bind (h.locate hsub htarget hs) fun location t ht _ hlocation => ?_
  refine h.bind (h.perform (.of_operands ht hlocation rfl)) fun stepped u hu _ _ => ?_
  exact h.pure hu (h.simple (Value.isSimple_ofNumber? _))

/-! ### Calls -/

omit hsub in
/-- Arguments are copied out, and the answer is taken in. -/
theorem executeToken (hs : R.Sound s) (hargs : R.FitsAll s.heap args) :
    R.Keeps env (Steps.executeToken args span) s R.Fits := by
  refine h.bind (h.perform (.of_operands hs hargs rfl)) fun id t ht hgrows _ => ?_
  have hargs := h.fitsAll_of_grows hgrows hargs
  cases id with
  | none => exact h.fail ht _
  | some id =>
    have hrest : R.FitsAll t.heap (args.drop 1) := fun v hv => hargs v (List.mem_of_mem_drop hv)
    refine h.bind (h.copyOutAll ht hrest span) fun data u hu _ _ => ?_
    refine h.bind (h.perform (.of_operands hu (.nil _) rfl)) fun d w hw _ hd => ?_
    exact h.takeIn hw (hd.2.1 d List.mem_cons_self)

omit hsub in
theorem argumentText {i : Nat} (hs : R.Sound s) (hargs : R.FitsAll s.heap args) :
    R.Keeps env (Steps.argumentText args i) s fun _ _ => True := by
  unfold Steps.argumentText
  cases hi : args[i]? with
  | none => exact h.pure hs trivial
  | some v => exact h.display hs (hargs v (List.mem_of_getElem? hi))

omit hsub in
theorem returnType (hs : R.Sound s) (hargs : R.FitsAll s.heap args) :
    R.Keeps env (Steps.returnType args span) s fun _ _ => True := by
  unfold Steps.returnType
  cases hi : args[2]? with
  | none => exact h.pure hs trivial
  | some v =>
    exact (h.copyOut hs (hargs v (List.mem_of_getElem? hi)) span).mono fun _ _ _ => trivial

omit hsub in
theorem staticcallContract (hs : R.Sound s) (hargs : R.FitsAll s.heap args) :
    R.Keeps env (Steps.staticcallContract args span) s R.Fits := by
  refine h.bind (h.argumentText hs hargs) fun address t ht hgrows _ => ?_
  have hargs := h.fitsAll_of_grows hgrows hargs
  refine h.bind (h.argumentText ht hargs) fun signature u hu hgrows _ => ?_
  have hargs := h.fitsAll_of_grows hgrows hargs
  refine h.bind (h.returnType hu hargs) fun type w hw hgrows _ => ?_
  have hargs := h.fitsAll_of_grows hgrows hargs
  have hrest : R.FitsAll w.heap (args.drop 3) := fun v hv => hargs v (List.mem_of_mem_drop hv)
  refine h.bind (h.copyOutAll hw hrest span) fun data x hx _ _ => ?_
  refine h.bind (h.perform (.of_operands hx (.nil _) rfl)) fun d y hy _ hd => ?_
  exact h.takeIn hy (hd.2.1 d List.mem_cons_self)

include hcovers in
/-- A function of the program is called with what fits, or else a builtin. -/
theorem callName {name : String} (hs : R.Sound s) (hargs : R.FitsAll s.heap args) :
    R.Keeps env (Steps.callName env sub name args span) s R.Fits := by
  unfold Steps.callName
  cases hf : env.function? name with
  | some f => exact hsub.call (hcovers.functions hf) hs hargs
  | none =>
    dsimp only
    cases Run.Builtin.ofName? name with
    | none => exact h.fail hs _
    | some builtin =>
      cases builtin with
      | executeToken => exact h.executeToken hs hargs
      | staticcallContract => exact h.staticcallContract hs hargs

/-- Evaluates expressions from left to right. -/
theorem evalAll {es : List Expr} (hes : ∀ c ∈ es, P (c.outline 0)) (hs : R.Sound s) :
    R.Keeps env (Steps.each sub.eval es) s R.FitsAll :=
  h.each hs h.fits_of_grows fun e he _ ht _ => hsub.eval (hes e he) ht

theorem callMethod {receiver : Value} {method : String} {arguments : List Expr}
    (harguments : ∀ c ∈ arguments, P (c.outline 0)) (hs : R.Sound s)
    (hreceiver : R.Fits s.heap receiver) :
    R.Keeps env (do
      let args ← Steps.each sub.eval arguments
      Steps.perform (.callMethod receiver method args span)) s R.Fits := by
  refine h.bind (h.evalAll hsub harguments hs) fun args t ht hgrows hargs => ?_
  exact h.performValue (.of_operands ht (.cons (h.fits_of_grows hgrows hreceiver) hargs) rfl)
    fun _ => rfl

include hcovers in
/-- The arguments are evaluated behind the callee, on a heap that has grown since. -/
theorem evalCall {callee : Expr} {arguments : List Expr}
    (hcallee : ∀ c ∈ callee.calleeOperands, P (c.outline 0))
    (harguments : ∀ c ∈ arguments, P (c.outline 0)) (hs : R.Sound s) :
    R.Keeps env (Steps.evalCall env sub callee arguments span) s R.Fits := by
  cases callee with
  | place p =>
    cases p with
    | ident name range =>
      refine h.bind (h.evalAll hsub harguments hs) fun args t ht _ hargs => ?_
      exact h.callName hcovers hsub ht hargs
    | member object method range =>
      refine h.bind (hsub.eval (hcallee object List.mem_cons_self) hs) fun v t ht _ hv => ?_
      exact h.callMethod hsub harguments ht hv
    | index object key range =>
      refine h.bind (hsub.eval (hcallee object List.mem_cons_self) hs) fun v t ht _ hv => ?_
      refine h.bind (hsub.eval (hcallee key (List.mem_cons_of_mem _ List.mem_cons_self)) ht)
        fun k u hu hgrows hk => ?_
      -- The key is evaluated after the object, whose value must still fit the grown heap.
      have hv := h.fits_of_grows hgrows hv
      refine h.bind (h.display hu hk) fun method w hw hgrows _ => ?_
      exact h.callMethod hsub harguments hw (h.fits_of_grows hgrows hv)
  | _ => exact h.fail hs _

/-- A fallback fits, as does the `undefined` in its place. -/
theorem fallback {param : Param} (hparam : ∀ c ∈ param.fallback.toList, P (c.outline 0))
    (hs : R.Sound s) : R.Keeps env (Steps.fallback sub param) s R.Fits := by
  unfold Steps.fallback
  cases hf : param.fallback with
  | some e => exact hsub.eval (hparam e (by rw [hf]; exact List.mem_cons_self)) hs
  | none => exact h.pure hs (h.simple rfl)

/-- The remaining arguments still fit behind a fallback. -/
theorem bindParams {params : List Param}
    (hparams : ∀ p ∈ params, ∀ c ∈ p.fallback.toList, P (c.outline 0)) (hs : R.Sound s)
    (hargs : R.FitsAll s.heap args) :
    R.Keeps env (Steps.bindParams sub params args) s fun _ _ => True := by
  induction params generalizing args s with
  | nil => exact h.pure hs trivial
  | cons param params ih =>
    have hrest := fun p hp => hparams p (List.mem_cons_of_mem _ hp)
    cases args with
    | cons arg args =>
      have hargs := List.forall_mem_cons.mp hargs
      refine h.bind (h.define hs param.name hargs.1) fun _ t ht hgrows _ => ?_
      exact ih hrest ht (h.fitsAll_of_grows hgrows hargs.2)
    | nil =>
      refine h.bind (h.fallback hsub (hparams param List.mem_cons_self) hs) fun v t ht _ hv => ?_
      refine h.bind (h.define ht param.name hv) fun _ u hu _ _ => ?_
      exact ih hrest hu (.nil _)

include hcovers in
/-- A call gives what its body returns. -/
theorem callBody {f : Function} (hf : P f.outline) (hs : R.Sound s)
    (hargs : R.FitsAll s.heap args) : R.Keeps env (Steps.callBody sub f args) s R.Fits := by
  have hparams : ∀ p ∈ f.params, ∀ c ∈ p.fallback.toList, P (c.outline 0) := fun p hp c hc =>
    hcovers.inherited.fallbacks hf c (List.mem_flatMap.mpr ⟨p, hp, hc⟩)
  refine h.bind (h.bindParams hsub hparams hs hargs) fun _ t ht _ _ => ?_
  refine h.bind (hsub.exec (hcovers.inherited.body hf) ht) fun completion u hu _ hcompletion => ?_
  exact h.pure hu hcompletion

/-! ### Expressions -/

/-- A text fits on every heap. -/
theorem evalTypeof {operand : Expr} (hoperand : P (operand.outline 0)) (hs : R.Sound s) :
    R.Keeps env (Steps.evalTypeof sub operand) s R.Fits := by
  have heval : ∀ {t}, R.Sound t →
      R.Keeps env (do Steps.perform (.apply .typeof (← sub.eval operand))) t R.Fits := fun ht =>
    h.bind (hsub.eval hoperand ht) fun v u hu _ hv => h.apply hu hv .typeof
  unfold Steps.evalTypeof
  split
  · refine h.bind (h.performBare hs rfl rfl) fun value t ht _ _ => ?_
    cases value with
    | some v => exact heval ht
    | none => exact h.pure ht (h.typeName _ .undefined)
  · exact heval hs

theorem evalLogical {op : LogicalOp} {left right : Expr} (hleft : P (left.outline 0))
    (hright : P (right.outline 0)) (hs : R.Sound s) :
    R.Keeps env (Steps.evalLogical sub op left right) s R.Fits := by
  refine h.bind (hsub.eval hleft hs) fun v t ht _ hv => ?_
  cases op <;> dsimp only <;> split
  · exact hsub.eval hright ht
  · exact h.pure ht hv
  · exact h.pure ht hv
  · exact hsub.eval hright ht

theorem evalSequence {last : Value} {parts : List Expr} (hparts : ∀ c ∈ parts, P (c.outline 0))
    (hs : R.Sound s) (hlast : R.Fits s.heap last) :
    R.Keeps env (Steps.evalSequence sub last parts) s R.Fits := by
  induction parts generalizing last s with
  | nil => exact h.pure hs hlast
  | cons e parts ih =>
    refine h.bind (hsub.eval (hparts e List.mem_cons_self) hs) fun v t ht _ hv => ?_
    exact ih (fun c hc => hparts c (List.mem_cons_of_mem _ hc)) ht hv

theorem evalArray {elements : List Expr} (helements : ∀ c ∈ elements, P (c.outline 0))
    (hs : R.Sound s) : R.Keeps env (Steps.evalArray sub elements) s R.Fits := by
  refine h.bind (h.evalAll hsub helements hs) fun values t ht _ hvalues => ?_
  exact h.performValue (.of_operands ht hvalues rfl) fun _ => rfl

/-- The entries of an object are values that fit. -/
theorem evalObject {entries : List (String × Expr)}
    (hentries : ∀ c ∈ entries.map Prod.snd, P (c.outline 0)) (hs : R.Sound s) :
    R.Keeps env (Steps.evalObject sub entries) s R.Fits := by
  have hvalues := h.each (l := entries)
    (Q := fun heap (entry : String × Value) => R.Fits heap entry.2)
    (f := fun entry => do return (entry.1, ← sub.eval entry.2)) hs h.fits_of_grows
    fun entry hentry t ht _ => by
      refine h.bind (hsub.eval (hentries _ (List.mem_map_of_mem hentry)) ht) fun v u hu _ hv => ?_
      exact h.pure hu hv
  refine h.bind hvalues fun values t ht _ hvalues => ?_
  refine h.performValue (.of_operands ht (fun v hv => ?_) rfl) fun _ => rfl
  obtain ⟨entry, hentry, rfl⟩ := List.mem_map.mp hv
  exact hvalues entry hentry

include hcovers in
/-- Expressions keep the regime if what is inside them does. -/
theorem exprBody {e : Expr} (he : P (e.outline 0)) (hs : R.Sound s) :
    R.Keeps env (Steps.exprBody env sub e) s R.Fits := by
  -- what is said of an expression is inherited by its operands
  have hoperands := hcovers.inherited.exprOperands he
  cases e with
  | literal value span => exact h.pure hs (hcovers.literals he _)
  | place p =>
    refine h.bind (h.locate hsub hoperands hs) fun location t ht _ hlocation => ?_
    exact h.performValue (.of_operands ht hlocation rfl) fun _ => rfl
  | array elements span => exact h.evalArray hsub hoperands hs
  | object entries span => exact h.evalObject hsub hoperands hs
  | unary op operand span =>
    have hoperand := hoperands operand List.mem_cons_self
    cases op with
    | typeof => exact h.evalTypeof hsub hoperand hs
    | _ => exact h.bind (hsub.eval hoperand hs) fun v t ht _ hv => h.apply ht hv _
  | updateBefore op span inner target =>
    refine h.bind (h.stepBefore hsub hoperands hs) fun stepped t ht _ hstepped => ?_
    exact h.pure ht hstepped.2
  | updateAfter op target span => exact h.stepAfter hsub hoperands hs
  | binary op left right span =>
    have hoperands := List.forall_mem_cons.mp hoperands
    refine h.bind (hsub.eval hoperands.1 hs) fun v t ht _ hv => ?_
    refine h.bind (hsub.eval (hoperands.2 right List.mem_cons_self) ht) fun w u hu hgrows hw => ?_
    exact h.performValue (.of_operands hu (.two (h.fits_of_grows hgrows hv) hw) rfl) fun _ => rfl
  | logical op left right span =>
    have hoperands := List.forall_mem_cons.mp hoperands
    exact h.evalLogical hsub hoperands.1 (hoperands.2 right List.mem_cons_self) hs
  | assign op target value span =>
    have hoperands := List.forall_mem_append.mp hoperands
    exact h.assign hsub hoperands.1 (hoperands.2 value List.mem_cons_self) hs
  | conditional test consequent alternate span =>
    have hoperands := List.forall_mem_cons.mp hoperands
    have hbranches := List.forall_mem_cons.mp hoperands.2
    refine h.bind (hsub.eval hoperands.1 hs) fun v t ht _ _ => ?_
    split
    · exact hsub.eval hbranches.1 ht
    · exact hsub.eval (hbranches.2 alternate List.mem_cons_self) ht
  | sequence parts span => exact h.evalSequence hsub hoperands hs (h.simple rfl)
  | call callee arguments span =>
    have hoperands := List.forall_mem_append.mp hoperands
    exact h.evalCall hcovers hsub hoperands.1 hoperands.2 hs

/-! ### Statements -/

/-- Declarations bind what fits. -/
theorem declare {declarators : List Declarator}
    (hdeclarators : ∀ d ∈ declarators, ∀ c ∈ d.init.toList, P (c.outline 0)) (hs : R.Sound s) :
    R.Keeps env (Steps.declare sub declarators) s fun _ _ => True := by
  induction declarators generalizing s with
  | nil => exact h.pure hs trivial
  | cons d rest ih =>
    have hone : R.Keeps env (Steps.declareOne sub d) s fun _ _ => True := by
      unfold Steps.declareOne
      cases hinit : d.init with
      | some e =>
        have he := hdeclarators d List.mem_cons_self e (by rw [hinit]; exact List.mem_cons_self)
        exact h.bind (hsub.eval he hs) fun v t ht _ hv => h.define ht d.name hv
      | none =>
        -- Without an initial value a name that is bound already keeps its own.
        refine h.bind (h.performBare hs rfl rfl) fun known t ht _ _ => ?_
        split
        · exact h.pure ht trivial
        · exact h.define ht d.name (h.simple rfl)
    refine h.bind hone fun _ t ht _ _ => ?_
    exact ih (fun d' hd' => hdeclarators d' (List.mem_cons_of_mem _ hd')) ht

/-- A block gives what the statement it ends with gives. -/
theorem execBlock {body : List Stmt} (hbody : ∀ b ∈ body, P (b.outline 0)) (hs : R.Sound s) :
    R.Keeps env (Steps.execBlock sub body) s fun heap completion => R.Fits heap completion.result := by
  induction body generalizing s with
  | nil => exact h.pure hs (h.simple rfl)
  | cons b rest ih =>
    refine h.bind (hsub.exec (hbody b List.mem_cons_self) hs) fun completion t ht _ hresult => ?_
    cases completion with
    | normal => exact ih (fun b' hb' => hbody b' (List.mem_cons_of_mem _ hb')) ht
    | _ => exact h.pure ht hresult

/-- Evaluates an expression, if there is one, for its effect or for its truth. -/
theorem holds (htest : ∀ c ∈ test.toList, P (c.outline 0)) (hs : R.Sound s) :
    R.Keeps env (Steps.holds sub test) s fun _ _ => True := by
  cases test with
  | none => exact h.pure hs trivial
  | some e =>
    exact h.bind (hsub.eval (htest e List.mem_cons_self) hs) fun _ t ht _ _ => h.pure ht trivial

theorem finishRound (hupdate : ∀ c ∈ update.toList, P (c.outline 0)) (hs : R.Sound s) :
    R.Keeps env (Steps.finishRound sub update) s fun _ _ => True := by
  cases update with
  | none => exact h.pure hs trivial
  | some e =>
    exact h.bind (hsub.eval (hupdate e List.mem_cons_self) hs) fun _ t ht _ _ => h.pure ht trivial

theorem loopRound {body : Stmt} (htest : ∀ c ∈ test.toList, P (c.outline 0))
    (hupdate : ∀ c ∈ update.toList, P (c.outline 0)) (hbody : P (body.outline 0)) (hs : R.Sound s) :
    R.Keeps env (Steps.loopRound sub test update body) s fun heap ended =>
      ∀ completion ∈ ended, R.Fits heap completion.result := by
  refine h.bind (h.holds hsub htest hs) fun goesOn t ht _ _ => ?_
  split
  · refine h.bind (hsub.exec hbody ht) fun completion u hu _ hresult => ?_
    cases completion with
    -- Only these two end the loop, and what they leave behind is what the body left.
    | breakLoop | returned v =>
      refine h.pure hu fun completion hcompletion => ?_
      cases hcompletion
      exact hresult
    | normal | continueLoop =>
      refine h.bind (h.finishRound hsub hupdate hu) fun _ w hw _ _ => ?_
      exact h.pure hw fun completion hcompletion => by cases hcompletion
  · refine h.pure ht fun completion hcompletion => ?_
    cases hcompletion
    exact h.simple rfl

theorem repeatLoop {body : Stmt} {rounds : Nat} (htest : ∀ c ∈ test.toList, P (c.outline 0))
    (hupdate : ∀ c ∈ update.toList, P (c.outline 0)) (hbody : P (body.outline 0)) (hs : R.Sound s) :
    R.Keeps env (Steps.repeatLoop sub test update body rounds) s fun heap completion =>
      R.Fits heap completion.result := by
  induction rounds generalizing s with
  | zero => exact h.unfinished hs
  | succ rounds ih =>
    refine h.bind (h.loopRound hsub htest hupdate hbody hs) fun ended t ht _ hended => ?_
    cases ended with
    | some completion => exact h.pure ht (hended completion rfl)
    | none => exact ih ht

include hcovers in
/-- Statements keep the regime if what is inside them does. -/
theorem stmtBody {b : Stmt} (hb : P (b.outline 0)) (hs : R.Sound s) :
    R.Keeps env (Steps.stmtBody sub b) s fun heap completion => R.Fits heap completion.result := by
  have hoperands := hcovers.inherited.stmtOperands hb
  have hinner := hcovers.inherited.stmtInner hb
  -- a statement that ends as usual gives nothing
  have hnormal : ∀ {t}, R.Sound t → R.Keeps env (Pure.pure Completion.normal) t
      fun heap completion => R.Fits heap completion.result := fun ht => h.pure ht (h.simple rfl)
  cases b with
  | declare declarators span =>
    have hdeclarators : ∀ d ∈ declarators, ∀ c ∈ d.init.toList, P (c.outline 0) := fun d hd c hc =>
      hoperands c (List.mem_flatMap.mpr ⟨d, hd, hc⟩)
    exact h.bind (h.declare hsub hdeclarators hs) fun _ t ht _ _ => hnormal ht
  | block body span => exact h.execBlock hsub hinner hs
  | ifThen test consequent span =>
    refine h.bind (hsub.eval (hoperands test List.mem_cons_self) hs) fun v t ht _ _ => ?_
    split
    · exact hsub.exec (hinner consequent List.mem_cons_self) ht
    · exact hnormal ht
  | ifElse test consequent alternate span =>
    have hbranches := List.forall_mem_cons.mp hinner
    refine h.bind (hsub.eval (hoperands test List.mem_cons_self) hs) fun v t ht _ _ => ?_
    split
    · exact hsub.exec hbranches.1 ht
    · exact hsub.exec (hbranches.2 alternate List.mem_cons_self) ht
  | forLoop init test update body span =>
    have hoperands := List.forall_mem_append.mp hoperands
    have hends := List.forall_mem_append.mp hoperands.2
    have hinner := List.forall_mem_append.mp hinner
    have hstart : R.Keeps env (Steps.startLoop sub init) s fun _ _ => True := by
      cases init with
      | none => exact h.pure hs trivial
      | some init =>
        cases init with
        | declare declarators range =>
          exact h.bind (hsub.exec (hinner.1 _ List.mem_cons_self) hs) fun _ t ht _ _ =>
            h.pure ht trivial
        | evaluate e =>
          exact h.bind (hsub.eval (hoperands.1 e List.mem_cons_self) hs) fun _ t ht _ _ =>
            h.pure ht trivial
    refine h.bind hstart fun _ t ht _ _ => ?_
    exact h.repeatLoop hsub hends.1 hends.2 (hinner.2 body List.mem_cons_self) ht
  | whileLoop test body span =>
    have htest : ∀ c ∈ (some test).toList, P (c.outline 0) := hoperands
    exact h.repeatLoop hsub htest (fun _ hc => absurd hc List.not_mem_nil)
      (hinner body List.mem_cons_self) hs
  | returnValue argument span =>
    cases argument with
    | none => exact h.pure hs (h.simple rfl)
    | some e =>
      exact h.bind (hsub.eval (hoperands e List.mem_cons_self) hs) fun v t ht _ hv => h.pure ht hv
  | expression e span =>
    exact h.bind (hsub.eval (hoperands e List.mem_cons_self) hs) fun _ t ht _ _ => hnormal ht
  | breakLoop span | continueLoop span | empty span => exact h.pure hs (h.simple rfl)

/-! ## Runs -/

omit hsub
include hcovers

/-- Evaluation keeps the regime, down to any level. -/
theorem evaluators (levels : Nat) : R.KeptBy env P (Steps.evaluators env levels) := by
  induction levels with
  | zero =>
    exact ⟨fun _ _ hs => h.unfinished hs, fun _ _ hs => h.unfinished hs,
      fun _ _ _ hs _ => h.unfinished hs⟩
  | succ levels ih =>
    refine ⟨fun he s hs => ?_, fun hb s hs => ?_, fun hf args s hs hargs => ?_⟩
    · exact h.bind (h.performBare hs rfl rfl) fun _ t ht _ _ =>
        h.giving (h.exprBody hcovers ih he ht)
    · exact h.bind (h.performBare hs rfl rfl) fun _ t ht _ _ => h.stmtBody hcovers ih hb ht
    · refine h.bind (h.performBare hs rfl rfl) fun _ t ht hgrows _ => h.giving (h.inFrame ?_)
      exact h.callBody hcovers ih hf (h.push ht) (h.fitsAll_of_grows hgrows hargs)

omit hcovers in
/-- Names from outside are admitted, and fit once they are bound. -/
theorem bindIdentifiers {identifiers : List (String × Datum)}
    (hidentifiers : ∀ identifier ∈ identifiers, R.Admits identifier.2) (hs : R.Sound s) :
    R.Keeps env (Steps.bindIdentifiers identifiers) s fun _ _ => True := by
  induction identifiers generalizing s with
  | nil => exact h.pure hs trivial
  | cons identifier rest ih =>
    have hidentifiers := List.forall_mem_cons.mp hidentifiers
    refine h.bind (h.takeIn hs hidentifiers.1) fun v t ht _ hv => ?_
    refine h.bind (h.perform (.of_operands ht (.one hv) rfl)) fun _ u hu _ _ => ?_
    exact ih hidentifiers.2 hu

/-- Every operation of a run finds a sound state and values that fit. -/
theorem program {p : Program} {context : RunContext} {levels : Nat}
    (hentry : ∀ f, p.entry context.start = .ok f → P f.outline)
    (hidentifiers : ∀ identifier ∈ context.identifiers, R.Admits identifier.2)
    (hargs : ∀ d ∈ context.args, R.Admits d) (hs : R.Sound s) :
    R.Keeps env (Steps.program env p context levels) s R.Issues := by
  refine h.bind (h.bindIdentifiers hidentifiers hs) fun _ t ht _ _ => ?_
  have hfound : R.Keeps env (Steps.ofOutcome (p.entry context.start)) t fun _ f =>
      P f.outline := by
    cases hf : p.entry context.start with
    | error e => exact h.fail ht _
    | ok f => exact h.pure ht (hentry f hf)
  refine h.bind hfound fun f u hu _ hf => ?_
  have htaken := h.each (Q := R.Fits) hu h.fits_of_grows fun d hd w hw _ => h.takeIn hw (hargs d hd)
  refine h.bind htaken fun args w hw _ hargs => ?_
  refine h.bind ((h.evaluators hcovers levels).call hf hw hargs) fun v x hx _ hv => ?_
  exact h.copyOut hx hv f.span

end Kept

end Regime

end MeteredScript
