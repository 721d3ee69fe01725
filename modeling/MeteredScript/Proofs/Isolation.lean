import MeteredScript.Proofs.Congruence

namespace MeteredScript

/-! # Calls are isolated

A call sees the heap, the names bound from outside and its own frame, and it changes nothing else:
whatever it does and however it ends, the frames of the calls around it stay as they were. In the
other direction, nothing that the calls around it keep in their frames shows in what it does. Both are
one relation between runs from two states that may differ in all frames but the latest.
-/

/-! ## Frames below the latest -/

/-- Nothing but the variables of the latest call has changed. -/
structure Frames.SameBelow (before after : Frames) : Prop where
  depth : after.depth = before.depth
  below : after.stack.tail = before.stack.tail
  globals : after.globals = before.globals

/-- The latest call sees the same variables and the same names from outside. -/
structure Frames.SameView (frames frames' : Frames) : Prop where
  top : frames.top? = frames'.top?
  globals : frames.globals = frames'.globals

namespace Frames

theorem SameBelow.refl (frames : Frames) : SameBelow frames frames := ⟨rfl, rfl, rfl⟩

theorem SameBelow.trans {frames frames' frames'' : Frames} (h : SameBelow frames frames')
    (h' : SameBelow frames' frames'') : SameBelow frames frames'' :=
  ⟨h'.depth.trans h.depth, h'.below.trans h.below, h'.globals.trans h.globals⟩

/-- Binding a name changes the latest frame only. -/
theorem sameBelow_define (frames : Frames) (name : String) (value : Value) :
    SameBelow frames (frames.define name value) := by
  unfold define
  split
  · exact .refl _
  · rename_i frame rest hstack
    constructor
    · simp [depth, hstack]
    · simp [hstack]
    · rfl

/-- A frame that was opened and in which a call ran is the one that is closed. -/
theorem pop_of_sameBelow_push {frames after : Frames} (h : SameBelow frames.push after) :
    after.pop = frames := by
  have hstack : after.stack.tail = frames.stack := h.below
  have hglobals : after.globals = frames.globals := h.globals
  unfold pop
  rw [hstack, hglobals]

namespace SameView

variable {frames frames' : Frames} (h : SameView frames frames')
include h

/-- The latest frame is there in both or in neither, and is the same. -/
theorem cases_stack : (frames.stack = [] ∧ frames'.stack = []) ∨
    ∃ frame rest rest', frames.stack = frame :: rest ∧ frames'.stack = frame :: rest' := by
  have htop : frames.stack.head? = frames'.stack.head? := h.top
  cases hs : frames.stack with
  | nil =>
    left
    rw [hs, List.head?_nil] at htop
    exact ⟨rfl, List.head?_eq_none_iff.mp htop.symm⟩
  | cons frame rest =>
    right
    rw [hs, List.head?_cons] at htop
    obtain ⟨rest', hrest⟩ := List.head?_eq_some_iff.mp htop.symm
    exact ⟨frame, rest, rest', rfl, hrest⟩

/-- A name is looked up in the latest frame, and then among those from outside. -/
theorem get? (name : String) : frames.get? name = frames'.get? name := by
  unfold Frames.get?
  rcases h.cases_stack with ⟨hs, hs'⟩ | ⟨frame, rest, rest', hs, hs'⟩
  · rw [hs, hs', h.globals]
  · rw [hs, hs', h.globals]

theorem isLocal (name : String) : frames.isLocal name = frames'.isLocal name := by
  unfold Frames.isLocal
  rcases h.cases_stack with ⟨hs, hs'⟩ | ⟨frame, rest, rest', hs, hs'⟩
  · rw [hs, hs']
  · rw [hs, hs']

theorem isGlobal (name : String) : frames.isGlobal name = frames'.isGlobal name := by
  unfold Frames.isGlobal
  rw [h.globals]

theorem define (name : String) (value : Value) :
    SameView (frames.define name value) (frames'.define name value) := by
  unfold Frames.define
  rcases h.cases_stack with ⟨hs, hs'⟩ | ⟨frame, rest, rest', hs, hs'⟩
  · rw [hs, hs']
    exact h
  · rw [hs, hs']
    exact ⟨rfl, h.globals⟩

end SameView

end Frames

/-! ## Confined computations -/

namespace Run

/-- What a computation gives, apart from the state it stops in. -/
def answer {α : Type} : EStateM.Result Halt State α → Except Halt α
  | .ok a _ => .ok a
  | .error halt _ => .error halt

/-- Two states in which a call finds the same, apart from its own frame. -/
structure SameOutside (s s' : State) : Prop where
  heap : s.heap = s'.heap
  meter : s.meter = s'.meter
  globals : s.frames.globals = s'.frames.globals

/-- Two states that look the same to the latest call. -/
structure SameSight (s s' : State) : Prop where
  heap : s.heap = s'.heap
  meter : s.meter = s'.meter
  frames : s.frames.SameView s'.frames

/-- From two states that are the same in the sense of `Same` the two computations give the same and
stop in states that are again the same; and each of them leaves of the frames what `Kept` says. -/
structure Confined (Same : State → State → Prop) (Kept : Frames → Frames → Prop) {α : Type}
    (x y : Run α) : Prop where
  answer {s s' : State} : Same s s' → answer (x s) = answer (y s')
  same {s s' : State} : Same s s' → Same (final (x s)) (final (y s'))
  left (s : State) : Kept s.frames (final (x s)).frames
  right (s : State) : Kept s.frames (final (y s)).frames

/-- What the latest call does: it sees its own frame, and changes no other. -/
abbrev Isolated {α : Type} (x y : Run α) : Prop := Confined SameSight Frames.SameBelow x y

/-- What a call is for the one that makes it: it sees no frame and changes none. -/
abbrev Sealed {α : Type} (x y : Run α) : Prop :=
  Confined SameOutside (fun before after => after = before) x y

namespace Confined

variable {Same : State → State → Prop} {Kept : Frames → Frames → Prop} {α β : Type} {x y : Run α}

/-- Either both computations succeed with the same, or both halt in the same way. -/
theorem cases_result (h : Confined Same Kept x y) {s s' : State} (hs : Same s s') :
    (∃ a t t', x s = .ok a t ∧ y s' = .ok a t' ∧ Same t t') ∨
      ∃ halt t t', x s = .error halt t ∧ y s' = .error halt t' ∧ Same t t' := by
  have hanswer := h.answer hs
  have hsame := h.same hs
  -- Equal answers end in the same way, so two of the four cases cannot be.
  cases hx : x s with
  | ok a t =>
    left
    rw [hx] at hanswer hsame
    cases hy : y s' with
    | ok b t' =>
      rw [hy] at hanswer hsame
      cases hanswer
      exact ⟨a, t, t', rfl, rfl, hsame⟩
    | error halt t' =>
      rw [hy] at hanswer
      cases hanswer
  | error halt t =>
    right
    rw [hx] at hanswer hsame
    cases hy : y s' with
    | ok b t' =>
      rw [hy] at hanswer
      cases hanswer
    | error halt' t' =>
      rw [hy] at hanswer hsame
      cases hanswer
      exact ⟨halt, t, t', rfl, rfl, hsame⟩

theorem kept_bind {f : α → Run β}
    (htrans : ∀ {frames frames' frames''}, Kept frames frames' → Kept frames' frames'' →
      Kept frames frames'')
    (hx : ∀ s : State, Kept s.frames (final (x s)).frames)
    (hf : ∀ a (s : State), Kept s.frames (final (f a s)).frames) (s : State) :
    Kept s.frames (final ((x >>= f) s)).frames := by
  have hfirst := hx s
  cases hr : x s with
  | ok a t =>
    rw [hr] at hfirst
    rw [bind_of_ok hr]
    exact htrans hfirst (hf a t)
  | error halt t =>
    rw [hr] at hfirst
    rw [bind_of_error hr]
    exact hfirst

/-- Confined computations in a row, if what they keep is kept over both. -/
theorem bind {f g : α → Run β}
    (htrans : ∀ {frames frames' frames''}, Kept frames frames' → Kept frames' frames'' →
      Kept frames frames'')
    (hxy : Confined Same Kept x y) (hfg : ∀ a, Confined Same Kept (f a) (g a)) :
    Confined Same Kept (x >>= f) (y >>= g) where
  answer {s s'} hs := by
    rcases hxy.cases_result hs with ⟨a, t, t', hx, hy, ht⟩ | ⟨halt, t, t', hx, hy, ht⟩
    · rw [bind_of_ok hx, bind_of_ok hy]
      exact (hfg a).answer ht
    · rw [bind_of_error hx, bind_of_error hy]
      rfl
  same {s s'} hs := by
    rcases hxy.cases_result hs with ⟨a, t, t', hx, hy, ht⟩ | ⟨halt, t, t', hx, hy, ht⟩
    · rw [bind_of_ok hx, bind_of_ok hy]
      exact (hfg a).same ht
    · rw [bind_of_error hx, bind_of_error hy]
      exact ht
  left := kept_bind htrans hxy.left fun a => (hfg a).left
  right := kept_bind htrans hxy.right fun a => (hfg a).right

end Confined

/-! ### Sealed computations -/

namespace Sealed

variable {α β : Type} {x y : Run α}

theorem bind {f g : α → Run β} (hxy : Sealed x y) (hfg : ∀ a, Sealed (f a) (g a)) :
    Sealed (x >>= f) (y >>= g) :=
  Confined.bind (fun h h' => h'.trans h) hxy hfg

/-- What changes neither the frames nor the names bound from outside, and does the same to heap and
meter, is sealed. -/
theorem of_frames_eq (hframes : ∀ s : State, (final (x s)).frames = s.frames)
    (hx : ∀ {s s' : State}, SameOutside s s' → Run.answer (x s) = Run.answer (x s') ∧
      (final (x s)).heap = (final (x s')).heap ∧ (final (x s)).meter = (final (x s')).meter) :
    Sealed x x where
  answer hs := (hx hs).1
  same {s s'} hs := by
    obtain ⟨_, hheap, hmeter⟩ := hx hs
    refine ⟨hheap, hmeter, ?_⟩
    rw [hframes, hframes]
    exact hs.globals
  left := hframes
  right := hframes

theorem of_heap {f : Heap → α × Heap}
    (hx : ∀ s, x s = .ok (f s.heap).1 { s with heap := (f s.heap).2 }) : Sealed x x := by
  refine of_frames_eq (fun s => ?_) fun {s s'} hs => ?_
  · rw [hx, final]
  · rw [hx, hx, hs.heap]
    exact ⟨rfl, rfl, hs.meter⟩

theorem halt (halt : Halt) : Sealed (throw halt : Run α) (throw halt) :=
  of_frames_eq (fun _ => rfl) fun hs => ⟨rfl, hs.heap, hs.meter⟩

theorem pure (a : α) : Sealed (Pure.pure a : Run α) (Pure.pure a) :=
  of_frames_eq (fun _ => rfl) fun hs => ⟨rfl, hs.heap, hs.meter⟩

/-- Charging looks at the meter only. -/
theorem charge (units : Nat) : Sealed (Run.charge units) (Run.charge units) := by
  refine of_frames_eq (fun s => ?_) fun {s s'} hs => ?_
  · rcases Nat.lt_or_ge s.meter.limit (saturate (s.meter.used + units)) with hlt | hle
    · rw [charge_of_lt hlt, final]
    · rw [charge_of_le hle, final]
  · -- whether the charge fails depends on the meter alone
    have hcharged : s.meter.charge units = s'.meter.charge units := by rw [hs.meter]
    rcases Nat.lt_or_ge s.meter.limit (saturate (s.meter.used + units)) with hlt | hle
    · rw [charge_of_lt hlt, charge_of_lt (hs.meter ▸ hlt)]
      exact ⟨rfl, hs.heap, hcharged⟩
    · rw [charge_of_le hle, charge_of_le (hs.meter ▸ hle)]
      exact ⟨rfl, hs.heap, hcharged⟩

theorem enter : Sealed Run.enter Run.enter := by
  let count : Run Unit := modify fun s => { s with entries := s.entries + 1 }
  have hcount : Sealed count count :=
    of_frames_eq (fun _ => rfl) fun hs => ⟨rfl, hs.heap, hs.meter⟩
  exact bind hcount fun _ => charge 1

/-- What looks at no frame at all is isolated. -/
theorem isolated (h : Sealed x y) : Isolated x y := by
  have houtside : ∀ {s s' : State}, SameSight s s' → SameOutside s s' :=
    fun hs => ⟨hs.heap, hs.meter, hs.frames.globals⟩
  refine ⟨fun hs => h.answer (houtside hs), fun {s s'} hs => ?_, fun s => ?_, fun s => ?_⟩
  · have hsame := h.same (houtside hs)
    refine ⟨hsame.heap, hsame.meter, ?_⟩
    rw [h.left, h.right]
    exact hs.frames
  · rw [h.left]
    exact .refl _
  · rw [h.right]
    exact .refl _

/-- The last state of a call is that of its body, without the frame. -/
theorem final_inFrame (x : Run α) (s : State) :
    final (Run.inFrame x s) =
      { final (x { s with frames := s.frames.push }) with
        frames := (final (x { s with frames := s.frames.push })).frames.pop } := by
  unfold Run.inFrame
  cases x { s with frames := s.frames.push } with
  | ok a t => rfl
  | error halt t => rfl

theorem answer_inFrame (x : Run α) (s : State) :
    Run.answer (Run.inFrame x s) = Run.answer (x { s with frames := s.frames.push }) := by
  unfold Run.inFrame
  cases x { s with frames := s.frames.push } with
  | ok a t => rfl
  | error halt t => rfl

/-- A frame of its own seals what runs in it: the frame that is closed is the one that was opened. -/
theorem inFrame (h : Isolated x y) : Sealed (Run.inFrame x) (Run.inFrame y) := by
  have hleft : ∀ s : State, (final (Run.inFrame x s)).frames = s.frames := by
    intro s
    rw [final_inFrame]
    exact Frames.pop_of_sameBelow_push (h.left { s with frames := s.frames.push })
  have hright : ∀ s : State, (final (Run.inFrame y s)).frames = s.frames := by
    intro s
    rw [final_inFrame]
    exact Frames.pop_of_sameBelow_push (h.right { s with frames := s.frames.push })
  -- Two states that agree outside look the same from a fresh frame.
  have hopened : ∀ {s s' : State}, SameOutside s s' →
      SameSight { s with frames := s.frames.push } { s' with frames := s'.frames.push } :=
    fun hs => ⟨hs.heap, hs.meter, rfl, hs.globals⟩
  refine ⟨fun {s s'} hs => ?_, fun {s s'} hs => ?_, hleft, hright⟩
  · rw [answer_inFrame, answer_inFrame]
    exact h.answer (hopened hs)
  · have hsame := h.same (hopened hs)
    constructor
    · rw [final_inFrame, final_inFrame]
      exact hsame.heap
    · rw [final_inFrame, final_inFrame]
      exact hsame.meter
    · rw [hleft, hright]
      exact hs.globals

end Sealed

/-! ### Isolated computations -/

/-- A name is set where it is bound: in the latest frame only. -/
theorem setVariable_apply (name : String) (value : Value) (s : State) :
    setVariable name value s =
      if s.frames.isLocal name = true then .ok true { s with frames := s.frames.define name value }
      else .ok false s := by
  unfold setVariable Frames.set?
  rw [modifyGet_apply]
  cases s.frames.isLocal name with
  | true => rfl
  | false => rfl

namespace Isolated

variable {α : Type} {x : Run α}

/-- A computation that reads only what the latest call sees of the frames. -/
theorem of_view {f : Frames → α} (hx : ∀ s, x s = .ok (f s.frames) s)
    (hf : ∀ {frames frames' : Frames}, frames.SameView frames' → f frames = f frames') :
    Isolated x x := by
  have hbelow : ∀ s : State, s.frames.SameBelow (final (x s)).frames := by
    intro s
    rw [hx]
    exact .refl _
  refine ⟨fun {s s'} hs => ?_, fun {s s'} hs => ?_, hbelow, hbelow⟩
  · rw [hx, hx, hf hs.frames]
    rfl
  · rw [hx, hx]
    exact hs

theorem define (name : String) (value : Value) :
    Isolated (Run.define name value) (Run.define name value) where
  answer _ := rfl
  same hs := ⟨hs.heap, hs.meter, hs.frames.define name value⟩
  left s := s.frames.sameBelow_define name value
  right s := s.frames.sameBelow_define name value

/-- Setting a name is isolated, as only the latest frame is looked at. -/
theorem setVariable (name : String) (value : Value) :
    Isolated (Run.setVariable name value) (Run.setVariable name value) := by
  have hbelow : ∀ s : State, s.frames.SameBelow (final (Run.setVariable name value s)).frames := by
    intro s
    rw [setVariable_apply]
    split
    · exact s.frames.sameBelow_define name value
    · exact .refl _
  refine ⟨fun {s s'} hs => ?_, fun {s s'} hs => ?_, hbelow, hbelow⟩
  · rw [setVariable_apply, setVariable_apply, hs.frames.isLocal name]
    split
    · rfl
    · rfl
  · rw [setVariable_apply, setVariable_apply, hs.frames.isLocal name]
    split
    · exact ⟨hs.heap, hs.meter, hs.frames.define name value⟩
    · exact hs

/-- All primitives are isolated. -/
theorem primitive {names : String → Prop} (hx : Primitive names x) : Isolated x x := by
  have hheap : ∀ {f : Heap → α × Heap},
      (∀ s, x s = .ok (f s.heap).1 { s with heap := (f s.heap).2 }) → Isolated x x :=
    fun hx => (Sealed.of_heap hx).isolated
  -- what only touches the heap is sealed, what touches names is shown one by one
  cases hx with
  | lookup name => exact of_view (fun _ => rfl) fun h => h.get? name
  | isLocal name => exact of_view (fun _ => rfl) fun h => h.isLocal name
  | isGlobal name => exact of_view (fun _ => rfl) fun h => h.isGlobal name
  | define name value _ => exact define name value
  | setVariable name value _ => exact setVariable name value
  | display v => exact @hheap (fun heap => (heap.display v, heap)) fun _ => rfl
  | arrayLength handle => exact @hheap (fun heap => ((heap.elements handle).size, heap)) fun _ => rfl
  | element handle index =>
    exact @hheap (fun heap => ((heap.elements handle)[index]?.getD .undefined, heap)) fun _ => rfl
  | property? handle key => exact @hheap (fun heap => (heap.property? handle key, heap)) fun _ => rfl
  | exportDatum? v => exact @hheap (fun heap => (heap.exportDatum? v, heap)) fun _ => rfl
  | comparison op left right =>
    exact @hheap (fun heap => (Value.satisfies heap op left right, heap)) fun _ => rfl
  | addArray elements =>
    exact @hheap (fun heap => ((heap.addArray elements).2, (heap.addArray elements).1)) fun _ => rfl
  | addObject entries =>
    exact @hheap (fun heap => ((heap.addObject entries).2, (heap.addObject entries).1)) fun _ => rfl
  | addDatum d =>
    exact @hheap (fun heap => ((heap.importDatum d).2, (heap.importDatum d).1)) fun _ => rfl
  | setElement handle index value =>
    exact @hheap (fun heap => ((), heap.setElement handle index value)) fun _ => rfl
  | appendElements handle values =>
    exact @hheap (fun heap => ((), heap.appendElements handle values)) fun _ => rfl
  | setProperty handle key value =>
    exact @hheap (fun heap => ((), heap.setProperty handle key value)) fun _ => rfl

end Isolated

/-- All rules keep computations isolated. -/
theorem congruence_isolated : Congruence id Isolated where
  pure a := (Sealed.pure a).isolated
  bind hxy hfg := Confined.bind Frames.SameBelow.trans hxy hfg
  fail e _ := by
    rw [Error.mapSpan_id]
    exact (Sealed.halt _).isolated
  crash c := (Sealed.halt _).isolated
  charge units := (Sealed.charge units).isolated
  enter := Sealed.enter.isolated
  primitive hx := .primitive hx

theorem related_isolated (env : Env) (levels : Nat) :
    Related id Isolated (evaluators env 0 levels) (evaluators env 0 levels) := by
  have hsim := congruence_isolated.simulation env fun e _ => (Sealed.halt _).isolated
  exact hsim.evaluators (fun h => (Sealed.inFrame h).isolated) (Sealed.halt _).isolated levels

theorem sealed_callBody (env : Env) (levels : Nat) (f : Function) (args : List Value) :
    Sealed (inFrame (callBody (evaluators env 0 levels) f args))
      (inFrame (callBody (evaluators env 0 levels) f args)) := by
  have hsim := congruence_isolated.simulation env fun e _ => (Sealed.halt _).isolated
  have hrelated := related_isolated env levels
  have hbody := hsim.callBody f args (fun c _ => hrelated.eval c) (hrelated.exec _)
  rw [Function.mapSpans_id] at hbody
  exact Sealed.inFrame hbody

/-- Calls are sealed: what they do before they open their frame is to pay for it. -/
theorem sealed_call (env : Env) (levels : Nat) (f : Function) (args : List Value) :
    Sealed ((evaluators env 0 levels).call f args) ((evaluators env 0 levels).call f args) := by
  cases levels with
  | zero => exact Sealed.halt _
  | succ levels =>
    rw [evaluators_succ]
    exact Sealed.bind Sealed.enter fun _ => sealed_callBody env levels f args

end Run

/-! ## Evaluation -/

/-- Evaluating and running change no frame but the latest and no name bound from outside, and a call
leaves all frames as they were, however they end. What a call gives, and what it makes of the heap and
of the meter, depends on the heap, the meter and the names bound from outside alone. -/
theorem evaluators_isolated (env : Env) (level levels : Nat) :
    (∀ e (s : State),
        s.frames.SameBelow (Run.final ((evaluators env level levels).eval e s)).frames) ∧
      (∀ b (s : State),
        s.frames.SameBelow (Run.final ((evaluators env level levels).exec b s)).frames) ∧
      (∀ f args (s : State),
        (Run.final ((evaluators env level levels).call f args s)).frames = s.frames) ∧
      ∀ f args (s s' : State), Run.SameOutside s s' →
        let result := (evaluators env level levels).call f args s
        let result' := (evaluators env level levels).call f args s'
        Run.answer result = Run.answer result' ∧
          (Run.final result).heap = (Run.final result').heap ∧
          (Run.final result).meter = (Run.final result').meter := by
  rw [evaluators_level]
  have hrelated := Run.related_isolated env levels
  have hcall := Run.sealed_call env levels
  refine ⟨fun e s => (hrelated.eval e).left s, fun b s => (hrelated.exec b).left s, ?_, ?_⟩
  · intro f args s
    exact (hcall f args).left s
  · intro f args s s' hs
    have hsame := (hcall f args).same hs
    exact ⟨(hcall f args).answer hs, hsame.heap, hsame.meter⟩

/-- A function that asks for the type of a name it does not bind. -/
def askType : Function :=
  ⟨"f", [], [.returnValue (some (.unary .typeof (.place (.ident "x" {})) {})) {}], {}, {}⟩

/-- The caller's variable `x` does not show in what the function gives, and is there afterwards. -/
theorem askType_isolated :
    let outside : State := { meter := { limit := 10 } }
    let caller : State := { outside with frames := { stack := [Std.TreeMap.empty.insert "x" .null] } }
    let call := (evaluators ⟨∅, {}, 0⟩ 0 9).call askType []
    Run.answer (call outside) = .ok (.string "undefined") ∧
      Run.answer (call outside) = Run.answer (call caller) ∧
      (Run.final (call caller)).frames.get? "x" = some .null := by
  intro outside caller call
  obtain ⟨_, _, hframes, hsame⟩ := evaluators_isolated ⟨∅, {}, 0⟩ 0 9
  refine ⟨by rfl, (hsame askType [] outside caller ⟨rfl, rfl, rfl⟩).1, ?_⟩
  rw [hframes]
  rfl

end MeteredScript
