import MeteredScript.Proofs.Cuts
import MeteredScript.Proofs.Isolation
import MeteredScript.Proofs.Regime
import MeteredScript.Proofs.Words

namespace MeteredScript

/-! # What operations do

Whatever an operation does, it changes memory at most once, at the end, and it has paid for the
change by then; if it fails, it has at most paid. `Change` lists the changes there are, and
`Operation.makes` says this of every operation and every state: what is put into memory are values
that the operation was given, or numbers.
-/

/-! ## Changes to memory -/

/-- A change to the frames or to the heap. -/
inductive Change where
  | none
  | define (name : String) (value : Value)
  | bindGlobal (name : String) (value : Value)
  | addArray (elements : List Value)
  | addObject (entries : List (String × Value))
  | addDatum (d : Datum)
  | setElement (handle index : Nat) (value : Value)
  | appendElements (handle : Nat) (values : List Value)
  | setProperty (handle : Nat) (key : String) (value : Value)

namespace Change

def onHeap (heap : Heap) : Change → Heap
  | none | define _ _ | bindGlobal _ _ => heap
  | addArray elements => (heap.addArray elements).1
  | addObject entries => (heap.addObject entries).1
  | addDatum d => (heap.importDatum d).1
  | setElement handle index value => heap.setElement handle index value
  | appendElements handle values => heap.appendElements handle values
  | setProperty handle key value => heap.setProperty handle key value

def onFrames (frames : Frames) : Change → Frames
  | define name value => frames.define name value
  | bindGlobal name value => frames.defineGlobal name value
  | _ => frames

/-- The values that a change puts into memory; those inside of data are not there yet. -/
def values : Change → List Value
  | none | addDatum _ => []
  | define _ value | bindGlobal _ value => [value]
  | addArray elements => elements
  | addObject entries => entries.map Prod.snd
  | setElement _ _ value => [value]
  | appendElements _ values => values
  | setProperty _ _ value => [value]

def data : Change → List Datum
  | addDatum d => [d]
  | _ => []

/-- What has to be paid for a change. Only what adds to the heap costs something. -/
def price (heap : Heap) : Change → Nat
  | none | define _ _ | bindGlobal _ _ | setElement _ _ _ => 0
  | addArray elements => 1 + elements.length
  | addObject entries => 1 + entries.length
  | addDatum d => 1 + d.size
  | appendElements _ values => values.length
  | setProperty handle key _ => if (heap.property? handle key).isSome then 0 else 1

/-- A change that is paid for takes one state to the other. -/
structure Done (change : Change) (s t : State) : Prop where
  heap : t.heap = change.onHeap s.heap
  frames : t.frames = change.onFrames s.frames
  paid : saturate (s.meter.used + change.price s.heap) ≤ t.meter.used

end Change

/-- At least so many units were paid between two states, and nothing else happened. -/
structure State.Paid (units : Nat) (s t : State) : Prop where
  heap : t.heap = s.heap
  frames : t.frames = s.frames
  paid : saturate (s.meter.used + units) ≤ t.meter.used

namespace State.Paid

theorem refl (s : State) : s.Paid 0 s := ⟨rfl, rfl, Nat.min_le_left _ _⟩

variable {s t : State}

/-- Payments add up. -/
theorem trans {m n : Nat} {u : State} (h : s.Paid m t) (h' : t.Paid n u) : s.Paid (m + n) u := by
  refine ⟨h'.heap.trans h.heap, h'.frames.trans h.frames, ?_⟩
  have hfirst := h.paid
  have hsecond := h'.paid
  unfold saturate at hfirst hsecond ⊢
  omega

theorem weaken {m n : Nat} (h : s.Paid n t) (hle : m ≤ n) : s.Paid m t := by
  refine ⟨h.heap, h.frames, ?_⟩
  have hpaid := h.paid
  unfold saturate at hpaid ⊢
  omega

/-- A charge pays what it says, or all that is left. -/
theorem charge (s : State) (units : Nat) : s.Paid units { s with meter := s.meter.charge units } :=
  ⟨rfl, rfl, Nat.le_refl _⟩

/-- A change that comes after paying for it. -/
theorem done {units : Nat} {u : State} {change : Change} (h : s.Paid units t)
    (hprice : change.price t.heap ≤ units) (hheap : u.heap = change.onHeap t.heap)
    (hframes : u.frames = change.onFrames t.frames) (hmeter : u.meter = t.meter) :
    change.Done s u := by
  rw [h.heap] at hprice hheap
  rw [h.frames] at hframes
  have hpaid := (h.weaken hprice).paid
  exact ⟨hheap, hframes, hmeter ▸ hpaid⟩

end State.Paid

namespace Run

variable {α β : Type}

/-! ## Where computations lead -/

/-- A computation from a state leads to results and states with `Q`, or halts in a state with `E`. -/
structure Leads (x : Run α) (s : State) (Q : α → State → Prop) (E : State → Prop) : Prop where
  ok {a : α} {t : State} : x s = .ok a t → Q a t
  error {halt : Halt} {t : State} : x s = .error halt t → E t

namespace Leads

variable {x : Run α} {f : α → Run β} {s : State} {Q : α → State → Prop} {Q' : β → State → Prop}
  {E : State → Prop}

theorem of_ok {a : α} {t : State} (hx : x s = .ok a t) (ha : Q a t) : Leads x s Q E := by
  constructor
  · intro a' t' hx'
    cases hx.symm.trans hx'
    exact ha
  · intro halt t' hx'
    cases hx.symm.trans hx'

theorem pure {a : α} (ha : Q a s) : Leads (Pure.pure a) s Q E := of_ok rfl ha

theorem halt {h : Halt} (hs : E s) : Leads (throw h) s Q E := by
  constructor
  · rintro a t ⟨⟩
  · rintro halt t ⟨⟩
    exact hs

/-- A halt of the first part is one of the whole; otherwise the second part leads on. -/
theorem bind (hx : Leads x s Q E) (hf : ∀ a t, Q a t → Leads (f a) t Q' E) :
    Leads (x >>= f) s Q' E := by
  -- the state in between is either one with a result or the last
  cases hr : x s with
  | ok a t =>
    have hnext := hf a t (hx.ok hr)
    constructor
    · intro b u hb
      exact hnext.ok ((bind_of_ok hr).symm.trans hb)
    · intro halt u hu
      exact hnext.error ((bind_of_ok hr).symm.trans hu)
  | error halt t =>
    have hstop := bind_of_error (f := f) hr
    constructor
    · intro b u hb
      cases hstop.symm.trans hb
    · intro halt' u hu
      cases hstop.symm.trans hu
      exact hx.error hr

/-- Whether there is enough left or not, what there is has been paid. -/
theorem charge (units : Nat) :
    Leads (Run.charge units) s (fun _ t => s.Paid units t) (s.Paid units) := by
  -- a charge beyond the limit takes all that is left
  by_cases hle : saturate (s.meter.used + units) ≤ s.meter.limit
  · exact of_ok (charge_of_le hle) (.charge s units)
  · have hstop := charge_of_lt (Nat.lt_of_not_le hle)
    constructor
    · intro a t hok
      cases hstop.symm.trans hok
    · intro halt t hhalt
      cases hstop.symm.trans hhalt
      exact .charge s units

theorem congr {y : Run α} {t : State} (hxy : x s = y t) (hy : Leads y t Q E) : Leads x s Q E :=
  ⟨fun hok => hy.ok (hxy ▸ hok), fun herror => hy.error (hxy ▸ herror)⟩

theorem mono {Q'' : α → State → Prop} {E' : State → Prop} (hx : Leads x s Q E)
    (hQ : ∀ a t, Q a t → Q'' a t) (hE : ∀ t, E t → E' t) : Leads x s Q'' E' :=
  ⟨fun ha => hQ _ _ (hx.ok ha), fun hh => hE _ (hx.error hh)⟩

/-- What holds with or without a result holds of the last state. -/
theorem final (hx : Leads x s (fun _ t => E t) E) : E (Run.final (x s)) := by
  cases hr : x s with
  | ok a t => exact hx.ok hr
  | error halt t => exact hx.error hr

end Leads

/-- A computation that pays at most. -/
def Quiet (x : Run α) : Prop := ∀ s, Leads x s (fun _ t => s.Paid 0 t) (s.Paid 0)

namespace Quiet

variable {x : Run α} {f : α → Run β}

theorem of_read (hx : ∀ s, ∃ a, x s = .ok a s) : Quiet x := by
  intro s
  obtain ⟨a, ha⟩ := hx s
  exact .of_ok ha (.refl s)

theorem pure (a : α) : Quiet (Pure.pure a : Run α) := fun s => .pure (.refl s)

theorem halt (h : Halt) : Quiet (throw h : Run α) := fun s => .halt (.refl s)

theorem fail (error : Error) : Quiet (Run.fail error : Run α) := halt _

/-- What leaves memory alone goes on to do so. -/
theorem bind (hx : Quiet x) (hf : ∀ a, Quiet (f a)) : Quiet (x >>= f) := by
  intro s
  -- the halted state of the second computation is seen from the state of the first
  have hfirst : Leads x s (fun _ t => s.Paid 0 t) (s.Paid 0) := hx s
  refine hfirst.bind fun a t ht => ?_
  exact (hf a t).mono (fun _ u hu => ht.trans hu) fun u hu => ht.trans hu

theorem charge (units : Nat) : Quiet (Run.charge units) := fun _ =>
  (Leads.charge units).mono (fun _ _ ht => ht.weaken (Nat.zero_le units))
    fun _ ht => ht.weaken (Nat.zero_le units)

theorem orCrash (read : Except Crash α) : Quiet (Run.orCrash read) := by
  cases read with
  | ok a => exact pure a
  | error c => exact halt _

theorem display (v : Value) : Quiet (Run.display v) := of_read fun _ => ⟨_, rfl⟩

theorem arrayLength (handle : Nat) : Quiet (Run.arrayLength handle) := of_read fun _ => ⟨_, rfl⟩

theorem property? (handle : Nat) (key : String) : Quiet (Run.property? handle key) :=
  of_read fun _ => ⟨_, rfl⟩

/-- Reading an index changes nothing, whether it is a number in range or not. -/
theorem arrayIndex (key : Value) (length : Nat) (span : Span) :
    Quiet (Run.arrayIndex key length span) := by
  refine bind (orCrash _) fun number? => ?_
  cases number? with
  | none => exact bind (display key) fun _ => fail _
  | some n =>
    dsimp only
    split
    · exact pure _
    · exact fail _

/-- Reading changes nothing. -/
theorem readLocation (location : Location) (span : Span) : Quiet (Run.readLocation location span) := by
  cases location with
  | name name =>
    refine bind (of_read fun _ => ⟨_, rfl⟩) fun value => ?_
    cases value with
    | some v => exact pure v
    | none => exact fail _
  | member object key =>
    unfold Run.readLocation Run.getMember
    cases object with
    | array handle =>
      refine bind (arrayLength handle) fun length => ?_
      split
      · exact pure _
      · exact bind (arrayIndex key length span) fun index => of_read fun _ => ⟨_, rfl⟩
    | object handle =>
      exact bind (display key) fun text => bind (property? handle text) fun _ => pure _
    | _ => exact pure _

/-- An operator on numbers pays for its operands, and no more. -/
theorem numeric (price : Decimal → Decimal → Nat) (f : Decimal → Decimal → Option Decimal)
    (left right : Value) : Quiet (Run.numeric price f left right) := by
  refine bind (orCrash _) fun numbers? => ?_
  cases numbers? with
  | none => exact pure _
  | some numbers => exact bind (charge _) fun _ => pure _

theorem forM_charge (prices : List Nat) : Quiet (forM prices Run.charge) := by
  induction prices with
  | nil => exact pure ()
  | cons price rest ih => exact bind (charge price) fun _ => ih

/-- A power pays for each of its multiplications. -/
theorem exponentiate (left right : Value) : Quiet (Run.exponentiate left right) := by
  refine bind (orCrash _) fun numbers? => ?_
  cases numbers? with
  | none => exact pure _
  | some numbers =>
    dsimp only
    rw [Decimal.power_eq]
    exact bind (bind (forM_charge _) fun _ => pure _) fun _ => pure _

theorem concat (maxLength : Nat) (left right : Value) : Quiet (Run.concat maxLength left right) := by
  refine bind (display left) fun l => bind (display right) fun r => ?_
  dsimp only
  split
  · exact fail _
  · exact bind (charge _) fun _ => pure _

/-- Operators change nothing; what they give is a number, a text or a truth value. -/
theorem binary (maxLength : Nat) (op : BinaryOp) (left right : Value) :
    Quiet (Run.binary maxLength op left right) := by
  -- the operators differ in what they pay
  cases op with
  | compare op =>
    exact bind (bind (of_read fun _ => ⟨_, rfl⟩) fun answer => orCrash answer) fun _ => pure _
  | arith op =>
    cases op with
    | add =>
      unfold Run.binary Run.arith Run.add
      dsimp only
      split
      · exact pure _
      · split
        · exact concat maxLength left right
        · exact numeric _ _ left right
    | sub | mul | div | rem => exact numeric _ _ left right
    | exp => exact exponentiate left right
    | bitAnd | bitOr | bitXor | shl | shr | ushr => exact orCrash _

/-- Copying a value out changes nothing inside. -/
theorem exportDatum (v : Value) (span : Span) : Quiet (Run.exportDatum v span) := by
  refine bind (of_read fun _ => ⟨_, rfl⟩) fun exported => ?_
  cases exported with
  | ok d => exact pure d
  | error fault => exact fail _

theorem ofOutcome (outcome : Except Error α) : Quiet (Run.ofOutcome outcome) := by
  cases outcome with
  | ok a => exact pure a
  | error e => exact fail e

/-- What collaborators do is not done to this state. -/
theorem askToken (collaborators : Collaborators) (id : Decimal) (args : List Datum) :
    Quiet (Run.askToken collaborators id args) := by
  unfold Run.askToken
  cases collaborators.tokenExecutor with
  | some execute => exact ofOutcome _
  | none => exact fail _

theorem askContract (collaborators : Collaborators) (address signature : String)
    (returnType : Datum) (args : List Datum) :
    Quiet (Run.askContract collaborators address signature returnType args) := by
  unfold Run.askContract
  cases collaborators.contractCaller with
  | some call => exact ofOutcome _
  | none => exact fail _

end Quiet

/-! ## Crashing -/

section

variable {x : Run α} {f : α → Run β} {s t : State} {P : Prop}

/-- A computation that never crashes. -/
def Calm (x : Run α) : Prop := ∀ s c t, x s ≠ .error (.crashed c) t

namespace Calm

/-- What always has a result does not crash. -/
theorem of_ok (hx : ∀ s, ∃ a t, x s = .ok a t) : Calm x := by
  intro s c t h
  obtain ⟨a, u, hok⟩ := hx s
  cases hok.symm.trans h

theorem pure (a : α) : Calm (Pure.pure a) := .of_ok fun s => ⟨a, s, rfl⟩

theorem fail (error : Error) : Calm (Run.fail error : Run α) := by
  rintro s c t ⟨⟩

/-- Having no units left is an error, not a crash. -/
theorem charge (units : Nat) : Calm (Run.charge units) := by
  intro s c t h
  unfold Run.charge at h
  dsimp only at h
  split at h
  · cases h
  · cases h

theorem enter : Calm Run.enter := fun s => charge 1 { s with entries := s.entries + 1 }

/-- Neither part crashes, and so neither does the whole. -/
theorem bind (hx : Calm x) (hf : ∀ a, Calm (f a)) : Calm (x >>= f) := by
  intro s c t h
  cases hr : x s with
  | ok a u => exact hf a u c t ((bind_of_ok hr).symm.trans h)
  | error halt u =>
    cases (bind_of_error hr).symm.trans h
    exact hx s c t hr

end Calm

/-- From a state on, a computation crashes just under a condition. -/
structure CrashesIff (x : Run α) (s : State) (P : Prop) : Prop where
  crashes : P → ∃ t, x s = .error (.crashed .insideCharacter) t
  only {c : Crash} {t : State} : x s = .error (.crashed c) t → P

namespace CrashesIff

theorem of_calm (hx : Calm x) : CrashesIff x s False :=
  ⟨fun h => h.elim, fun h => hx _ _ _ h⟩

theorem of_ok {a : α} (hx : x s = .ok a t) (hP : ¬P) : CrashesIff x s P :=
  ⟨fun h => absurd h hP, fun h => by cases hx.symm.trans h⟩

theorem of_failed {e : Error} (hx : x s = .error (.failed e) t) (hP : ¬P) : CrashesIff x s P :=
  ⟨fun h => absurd h hP, fun h => by cases hx.symm.trans h⟩

theorem of_crashed (hx : x s = .error (.crashed .insideCharacter) t) (hP : P) : CrashesIff x s P :=
  ⟨fun _ => ⟨t, hx⟩, fun _ => hP⟩

/-- The condition may be said in another way. -/
theorem iff {Q : Prop} (hx : CrashesIff x s P) (hPQ : P ↔ Q) : CrashesIff x s Q :=
  ⟨fun h => hx.crashes (hPQ.mpr h), fun h => hPQ.mp (hx.only h)⟩

theorem eq_insideCharacter (hx : CrashesIff x s P) {c : Crash} (h : x s = .error (.crashed c) t) :
    c = .insideCharacter := by
  obtain ⟨u, hu⟩ := hx.crashes (hx.only h)
  cases hu.symm.trans h
  rfl

/-- The condition shows in the answer. -/
theorem answer_eq_iff (hx : CrashesIff x s P) :
    answer (x s) = .error (.crashed .insideCharacter) ↔ P := by
  constructor
  · intro h
    cases hr : x s with
    | ok a t =>
      rw [hr] at h
      cases h
    | error halt t =>
      rw [hr] at h
      cases h
      exact hx.only hr
  · intro h
    obtain ⟨t, ht⟩ := hx.crashes h
    rw [ht]
    rfl

/-- Behind a result, the condition is that of what follows. -/
theorem bind_ok {a : α} (hx : x s = .ok a t) (hf : CrashesIff (f a) t P) :
    CrashesIff (x >>= f) s P :=
  ⟨fun h => bind_of_ok hx ▸ hf.crashes h, fun h => hf.only ((bind_of_ok hx).symm.trans h)⟩

/-- Only the first of two computations crashes. -/
theorem bind (hx : CrashesIff x s P) (hf : ∀ a t, x s = .ok a t → CrashesIff (f a) t False) :
    CrashesIff (x >>= f) s P := by
  cases hr : x s with
  | ok a t =>
    refine (bind_ok hr (hf a t hr)).iff (iff_of_false id fun h => ?_)
    obtain ⟨u, hu⟩ := hx.crashes h
    cases hr.symm.trans hu
  | error halt t =>
    refine ⟨fun h => ?_, fun h => ?_⟩
    · obtain ⟨u, hu⟩ := hx.crashes h
      exact ⟨u, bind_of_error hu⟩
    · cases (bind_of_error hr).symm.trans h
      exact hx.only hr

/-- A read that may cut a character is one that may crash. -/
theorem orCrash {read : Except Crash α} (h : CutIff read P) : CrashesIff (Run.orCrash read) s P := by
  by_cases hP : P
  · rw [h.cut hP]
    exact .of_crashed rfl hP
  · obtain ⟨a, ha⟩ := h.ok hP
    rw [ha]
    exact .of_ok rfl hP

end CrashesIff

end

/-! ## Writing -/

/-- There is a change of a kind, made and paid for. -/
def Changed (kind : Change → Prop) (s t : State) : Prop := ∃ change, kind change ∧ change.Done s t

/-- What is put into memory is the value that was to be written. -/
def Writes (value : Value) (change : Change) : Prop :=
  (∀ v ∈ change.values, v = value) ∧ change.data = []

/-- A write may change nothing at all. -/
theorem Writes.none (value : Value) : Writes value .none :=
  ⟨fun _ hv => absurd hv List.not_mem_nil, rfl⟩

variable {kind : Change → Prop} {x : Run α} {s : State}

/-- Where nothing happened but paying, no change was made. -/
theorem Changed.none {units : Nat} {t : State} (hkind : kind .none) (ht : s.Paid units t) :
    Changed kind s t :=
  ⟨.none, hkind, ht.heap, ht.frames, (ht.weaken (Nat.zero_le units)).paid⟩

/-- A change behind a payment is a change. -/
theorem Changed.after {t u : State} (ht : s.Paid 0 t) (hu : Changed kind t u) :
    Changed kind s u := by
  obtain ⟨change, hkind, hdone⟩ := hu
  refine ⟨change, hkind, hdone.heap.trans (by rw [ht.heap]), hdone.frames.trans (by rw [ht.frames]), ?_⟩
  have hfirst := ht.paid
  have hsecond := hdone.paid
  rw [ht.heap] at hsecond
  unfold saturate at hfirst hsecond ⊢
  omega

/-- A computation whose change is of a kind, and which has at most paid if it halts. -/
abbrev Makes (kind : Change → Prop) (x : Run α) (s : State) : Prop :=
  Leads x s (fun _ t => Changed kind s t) (s.Paid 0)

/-- What leaves memory alone makes the change that is none. -/
theorem Quiet.makes (hx : Quiet x) (hkind : kind .none) (s : State) : Makes kind x s :=
  (hx s).mono (fun _ _ ht => .none hkind ht) fun _ ht => ht

theorem Makes.mono {kind' : Change → Prop} (hx : Makes kind x s)
    (hkind : ∀ change, kind change → kind' change) : Makes kind' x s := by
  refine Leads.mono hx (fun _ t ht => ?_) fun _ ht => ht
  obtain ⟨change, hchange, hdone⟩ := ht
  exact ⟨change, hkind change hchange, hdone⟩

/-- What comes before a change may pay. -/
theorem Quiet.bind_makes {f : α → Run β} (hx : Quiet x) (hf : ∀ a t, Makes kind (f a) t)
    (s : State) : Makes kind (x >>= f) s := by
  refine Leads.bind (hx s) fun a t ht => ?_
  exact Leads.mono (hf a t) (fun _ _ hu => hu.after ht) fun _ hu => ht.trans hu

theorem charge_makes {units : Nat} {f : Unit → Run α} {change : Change} (hchange : kind change)
    (hprice : change.price s.heap ≤ units)
    (hf : ∀ t, ∃ a, f () t =
      .ok a { t with heap := change.onHeap t.heap, frames := change.onFrames t.frames }) :
    Makes kind (Run.charge units >>= f) s := by
  have hpaid : Leads (Run.charge units) s (fun _ t => s.Paid units t) (s.Paid 0) :=
    (Leads.charge units).mono (fun _ _ ht => ht) fun _ ht => ht.weaken (Nat.zero_le units)
  refine hpaid.bind fun _ t ht => ?_
  obtain ⟨a, ha⟩ := hf t
  refine .of_ok ha ⟨change, hchange, ht.done ?_ rfl rfl rfl⟩
  rw [ht.heap]
  exact hprice

/-- A change that costs nothing. -/
theorem free_makes {a : α} {change : Change} (hchange : kind change)
    (hprice : change.price s.heap = 0)
    (hx : x s = .ok a { s with heap := change.onHeap s.heap, frames := change.onFrames s.frames }) :
    Makes kind x s :=
  .of_ok hx ⟨change, hchange, (State.Paid.refl s).done (Nat.le_of_eq hprice) rfl rfl rfl⟩

/-- Writing a member sets an element, or puts a value under a key. -/
theorem makes_setMember (object key value : Value) (span : Span) (s : State) :
    Makes (Writes value) (Run.setMember object key value span) s := by
  have hnone := Writes.none value
  unfold Run.setMember
  cases object with
  | array handle =>
    refine (Quiet.arrayLength handle).bind_makes (fun length t => ?_) s
    refine (Quiet.arrayIndex key length span).bind_makes (fun index u => ?_) t
    have hwrites : Writes value (.setElement handle index value) :=
      ⟨fun v hv => List.mem_singleton.mp hv, rfl⟩
    exact free_makes hwrites rfl rfl
  | object handle =>
    refine (Quiet.display key).bind_makes (fun text t => ?_) s
    have hwrites : Writes value (.setProperty handle text value) :=
      ⟨fun v hv => List.mem_singleton.mp hv, rfl⟩
    have hold : Run.property? handle text t = .ok (t.heap.property? handle text) t := rfl
    -- only a property that is not there yet costs a unit
    cases hproperty : t.heap.property? handle text with
    | some old =>
      have hprice : (Change.setProperty handle text value).price t.heap = 0 :=
        if_pos (by rw [hproperty]; rfl)
      rw [hproperty] at hold
      have hset : (Run.chargeEntry (some old) >>= fun _ => Run.setProperty handle text value) t =
          .ok () { t with heap := t.heap.setProperty handle text value } := rfl
      exact .congr (bind_of_ok hold) (free_makes hwrites hprice hset)
    | none =>
      have hprice : (Change.setProperty handle text value).price t.heap = 1 :=
        if_neg (by rw [hproperty]; exact Bool.false_ne_true)
      rw [hproperty] at hold
      exact .congr (bind_of_ok hold)
        (charge_makes hwrites (Nat.le_of_eq hprice) fun u => ⟨(), rfl⟩)
  | _ => exact (Quiet.pure ()).makes hnone s

/-- Writing to a place sets a name that is bound, or writes a member. -/
theorem makes_writeLocation (location : Location) (value : Value) (span : Span) (s : State) :
    Makes (Writes value) (Run.writeLocation location value span) s := by
  -- a name is set only if it is bound; a member may have to be paid for
  cases location with
  | member object key => exact makes_setMember object key value span s
  | name name =>
    have hset := setVariable_apply name value s
    by_cases hlocal : s.frames.isLocal name = true
    · rw [if_pos hlocal] at hset
      have hwrites : Writes value (.define name value) :=
        ⟨fun v hv => List.mem_singleton.mp hv, rfl⟩
      exact .congr (bind_of_ok hset) (.of_ok rfl ⟨_, hwrites, rfl, rfl, Nat.min_le_left _ _⟩)
    · rw [if_neg hlocal] at hset
      refine .congr (bind_of_ok hset) ?_
      have hglobal : Quiet (Run.isGlobal name) := .of_read fun _ => ⟨_, rfl⟩
      refine (hglobal.bind fun global => ?_).makes (.none value) s
      split
      · exact .fail _
      · exact .fail _

/-- A step writes a number, or NaN. -/
theorem makes_stepLocation (op : UpdateOp) (location : Location) (span : Span) (s : State) :
    Makes (fun change => ∃ n, Writes (.ofNumber? n) change) (Run.stepLocation op location span) s := by
  refine (Quiet.readLocation location span).bind_makes (fun v t => ?_) s
  refine (Quiet.orCrash (stepNumber v)).bind_makes (fun old t => ?_) t
  have hcharge : Quiet (Run.chargeStep old) := by
    unfold Run.chargeStep
    cases old with
    | some n => exact .charge n.words
    | none => exact .pure ()
  refine hcharge.bind_makes (fun _ u => ?_) t
  have hwrite := makes_writeLocation location (.ofNumber? (old.map (step op))) span u
  exact Leads.bind (hwrite.mono fun change hwrites => ⟨_, hwrites⟩) fun _ u' hu => .pure hu

end Run

/-! ## Every operation -/

/-- A change that an operation may make: of values it was given or numbers, and of data it was
given. -/
structure Change.From {α : Type} (op : Operation α) (change : Change) : Prop where
  values : ∀ v ∈ change.values, v ∈ op.operands ∨ v.isSimple = true
  data : ∀ d ∈ change.data, d ∈ op.taken

variable {α : Type}

theorem Change.From.none (op : Operation α) : Change.From op .none :=
  ⟨fun _ hv => absurd hv List.not_mem_nil, fun _ hd => absurd hd List.not_mem_nil⟩

/-- A change of nothing but operands. -/
theorem Change.From.of_values {op : Operation α} {change : Change}
    (hvalues : ∀ v ∈ change.values, v ∈ op.operands) (hdata : change.data = []) :
    Change.From op change :=
  ⟨fun v hv => .inl (hvalues v hv), fun _ hd => absurd (hdata ▸ hd) List.not_mem_nil⟩

/-- A write is of a value that the operation was given, or of a number. -/
theorem Run.Writes.changeFrom {op : Operation α} {value : Value} {change : Change}
    (h : Run.Writes value change) (hvalue : value ∈ op.operands ∨ value.isSimple = true) :
    Change.From op change :=
  ⟨fun v hv => h.1 v hv ▸ hvalue, fun _ hd => absurd (h.2 ▸ hd) List.not_mem_nil⟩

/-- Every operation makes at most one change, of what it was given, and has paid for it. -/
theorem Operation.makes (env : Env) (op : Operation α) (s : State) :
    Run.Makes (Change.From op) (op.perform env) s := by
  have hnone := Change.From.none op
  cases op with
  | enter =>
    have henter : Run.enter s = Run.charge 1 { s with entries := s.entries + 1 } := rfl
    -- the state in front of the charge differs in the count of entries only
    have hpaid : ∀ {t}, State.Paid 1 { s with entries := s.entries + 1 } t → s.Paid 1 t :=
      fun ht => ⟨ht.heap, ht.frames, ht.paid⟩
    refine .congr henter ((Run.Leads.charge 1).mono (fun _ t ht => ?_) fun t ht => ?_)
    · exact .none hnone (hpaid ht)
    · exact (hpaid ht).weaken (Nat.zero_le 1)
  | lookup name | isLocal name => exact (Run.Quiet.of_read fun _ => ⟨_, rfl⟩).makes hnone s
  | define name value =>
    have hfrom : Change.From (.define name value) (.define name value) :=
      .of_values (fun _ hv => hv) rfl
    exact Run.free_makes hfrom rfl rfl
  | bindGlobal name value =>
    have hfrom : Change.From (.bindGlobal name value) (.bindGlobal name value) :=
      .of_values (fun _ hv => hv) rfl
    exact Run.free_makes hfrom rfl rfl
  | read location span => exact (Run.Quiet.readLocation location span).makes hnone s
  | write location value span =>
    exact (Run.makes_writeLocation location value span s).mono fun change hwrites =>
      hwrites.changeFrom (.inl List.mem_cons_self)
  | step op location span =>
    refine (Run.makes_stepLocation op location span s).mono fun change hstep => ?_
    obtain ⟨n, hwrites⟩ := hstep
    exact hwrites.changeFrom (.inr (Value.isSimple_ofNumber? n))
  | combine op left right => exact (Run.Quiet.binary _ op left right).makes hnone s
  | apply op v => exact (Run.Quiet.orCrash (v.unary op)).makes hnone s
  | display v => exact (Run.Quiet.display v).makes hnone s
  | makeArray elements =>
    have hfrom : Change.From (.makeArray elements) (.addArray elements) :=
      .of_values (fun _ hv => hv) rfl
    exact Run.charge_makes hfrom (Nat.le_refl _) fun t => ⟨_, rfl⟩
  | makeObject entries =>
    have hfrom : Change.From (.makeObject entries) (.addObject entries) :=
      .of_values (fun _ hv => hv) rfl
    exact Run.charge_makes hfrom (Nat.le_refl _) fun t => ⟨_, rfl⟩
  | callMethod receiver method args span =>
    unfold Operation.perform Run.callMethod
    dsimp only
    split
    · rename_i handle
      have hfrom : Change.From (.callMethod (.array handle) "push" args span)
          (.appendElements handle args) :=
        .of_values (fun _ hv => List.mem_cons_of_mem _ hv) rfl
      exact Run.charge_makes hfrom (Nat.le_refl _) fun t => ⟨_, rfl⟩
    · exact (Run.Quiet.fail _).makes hnone s
  | tokenId args => exact (Run.Quiet.orCrash (Run.tokenId args)).makes hnone s
  | askToken id args => exact (Run.Quiet.askToken _ id args).makes hnone s
  | askContract address signature returnType args =>
    exact (Run.Quiet.askContract _ address signature returnType args).makes hnone s
  | takeIn d =>
    have hfrom : Change.From (.takeIn d) (.addDatum d) :=
      ⟨fun _ hv => absurd hv List.not_mem_nil, fun _ hd => hd⟩
    exact Run.charge_makes hfrom (Nat.le_refl _) fun t => ⟨_, rfl⟩
  | copyOut v span => exact (Run.Quiet.exportDatum v span).makes hnone s
  | give v => exact (Run.Quiet.pure ()).makes hnone s

/-- Whether it fails or not, an operation makes at most one change. -/
theorem Operation.exists_change (env : Env) (op : Operation α) (s : State) :
    ∃ change : Change, change.From op ∧ change.Done s (Run.final (op.perform env s)) := by
  have hmakes := op.makes env s
  cases hr : op.perform env s with
  | ok a t => exact hmakes.ok hr
  | error halt t => exact Run.Changed.none (.none op) (hmakes.error hr)

end MeteredScript
