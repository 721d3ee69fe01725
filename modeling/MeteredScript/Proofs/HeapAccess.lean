import MeteredScript.Proofs.Handles
import MeteredScript.Proofs.Paths

namespace MeteredScript

/-! # No access is out of bounds

Reading an array that is not there would give an empty one, and would not show. Here are readers that
fail instead: `Heap.display?` for texts and `Heap.exportChecked` for copies. On a heap where everything
is there they give what `Heap.display` and `Heap.exportDatum?` give, and so do the members that an
operation reads and writes (`Operation.InBounds`). Main statement: for every operation of every run,
handles are good before and after it, the heap only grew, and no access was out of bounds.
-/

namespace Heap

/-! ## Reading with bounds -/

/-- Appends the texts of elements as `writeElements` does, by a writer that may fail. -/
def writeElements? (write : String → Value → Option String) : String → List Value → Option String
  | out, [] => some out
  | out, [v] => writeElement? out v
  | out, v :: rest => do
    let out ← writeElement? out v
    writeElements? write (out ++ ",") rest
where
  writeElement? (out : String) (v : Value) : Option String :=
    match v with
    | .null | .undefined => some out
    | v => write out v

/-- Appends the text of a value as `writeAt` does, if the arrays in it are there. -/
def writeAt? (heap : Heap) (bound : Nat) (active : Std.TreeSet Nat) (out : String) (v : Value) :
    Option String :=
  match v with
  | .array handle =>
    if active.contains handle then some out
    else
      match bound with
      | 0 => none
      | bound + 1 => do
        let elements ← heap.arrays[handle]?
        writeElements? (writeAt? heap bound (active.insert handle)) out elements.toList
  | v => some (heap.writeAt 0 0 active out v)

def display? (heap : Heap) (v : Value) : Option String := heap.writeAt? heap.arrays.size ∅ "" v

/-- Copies a value off the heap as `exportAt?` does, if the arrays and objects in it are there. -/
def exportAtChecked (heap : Heap) (bound : Nat) (around : Surroundings) (v : Value) :
    ExceptT RangeFault Option Datum :=
  match v with
  | .array handle =>
    if around.arrays.contains handle then throw .cyclicArray
    else
      match bound with
      | 0 => ExceptT.mk none
      | bound + 1 => do
        let elements ← ExceptT.lift heap.arrays[handle]?
        let inside := { around with arrays := around.arrays.insert handle }
        let items ← elements.toList.mapM (exportAtChecked heap bound inside)
        return .array items
  | .object handle =>
    if around.objects.contains handle then throw .cyclicObject
    else
      match bound with
      | 0 => ExceptT.mk none
      | bound + 1 => do
        let entries ← ExceptT.lift heap.objects[handle]?
        let inside := { around with objects := around.objects.insert handle }
        let entries ← entries.mapM fun entry => do
          return (entry.1, ← exportAtChecked heap bound inside entry.2)
        return .object entries
  | v => ExceptT.mk (some (heap.exportAt? 0 0 around v))

/-- The data of a value, if the arrays and objects in it are there. -/
def exportChecked (heap : Heap) (v : Value) : Option (Except RangeFault Datum) :=
  (heap.exportAtChecked (heap.arrays.size + heap.objects.size) {} v).run

/-! ## Reading what is there -/

/-- Elements are written alike if each one is. -/
theorem writeElements?_eq {write? : String → Value → Option String} {write : String → Value → String}
    {values : List Value} (hwrite : ∀ v ∈ values, ∀ out, write? out v = some (write out v))
    (out : String) : writeElements? write? out values = some (writeElements write out values) := by
  -- null and undefined are written as nothing, without being looked at
  have hone : ∀ v ∈ values, ∀ out, writeElements?.writeElement? write? out v =
      some (writeElements.writeElement write out v) := by
    intro v hv out
    have hv' := hwrite v hv out
    cases v with
    | null | undefined => rfl
    | _ => exact hv'
  induction values generalizing out with
  | nil => rfl
  | cons v rest ih =>
    have hfirst := hone v List.mem_cons_self out
    cases rest with
    | nil => exact hfirst
    | cons w rest =>
      have hrest := ih (fun v' hv' => hwrite v' (List.mem_cons_of_mem _ hv'))
        (writeElements.writeElement write out v ++ ",")
        fun v' hv' => hone v' (List.mem_cons_of_mem _ hv')
      unfold writeElements?
      rw [hfirst]
      exact hrest

theorem map_run_eq {α β ε : Type} {x : ExceptT ε Option α} {y : Except ε α} (h : x.run = some y)
    (f : α → β) : (x >>= fun a => pure (f a)).run = some (y >>= fun a => pure (f a)) := by
  rw [ExceptT.run_bind, h]
  cases y with
  | error e => rfl
  | ok a => rfl

/-- A list is gone through alike if each member is. -/
theorem mapM_run_eq {α β ε : Type} {f : α → ExceptT ε Option β} {g : α → Except ε β} {l : List α}
    (hfg : ∀ a ∈ l, (f a).run = some (g a)) : (l.mapM f).run = some (l.mapM g) := by
  induction l with
  | nil => rfl
  | cons a rest ih =>
    have hfirst := hfg a List.mem_cons_self
    have hrest := ih fun a' ha' => hfg a' (List.mem_cons_of_mem _ ha')
    rw [List.mapM_cons, List.mapM_cons, ExceptT.run_bind, hfirst]
    cases g a with
    | error e => rfl
    | ok b => exact map_run_eq hrest (b :: ·)

/-- Inserting a number that was not seen takes its weight off. -/
theorem unseen_insert_add_le (weight : Nat → Nat) {seen : Std.TreeSet Nat} {k n : Nat} (hk : k < n)
    (hnew : ¬ seen.contains k = true) :
    unseen weight (seen.insert k).contains n + weight k ≤ unseen weight seen.contains n := by
  refine unseen_add_le weight (fun k' hk' => ?_) hk hnew ?_
  · rw [Std.TreeSet.contains_insert, hk', Bool.or_true]
  · exact Std.TreeSet.contains_insert_self

variable {heap : Heap} {v : Value}

theorem getElem?_arrays_of_has {handle : Nat} (h : heap.Has (.array handle)) :
    heap.arrays[handle]? = some (heap.elements handle) := by
  unfold Heap.elements
  rw [Array.getElem?_eq_getElem h]
  rfl

theorem getElem?_objects_of_has {handle : Nat} (h : heap.Has (.object handle)) :
    heap.objects[handle]? = some (heap.entries handle) := by
  unfold Heap.entries
  rw [Array.getElem?_eq_getElem h]
  rfl

/-- Every array is entered at most once on the way down, so the bound is never what ends it. -/
theorem writeAt?_eq (h : heap.Sound) {bound : Nat} {active : Std.TreeSet Nat} (hv : heap.Has v)
    (hbound : unseen (fun _ => 1) active.contains heap.arrays.size ≤ bound) (level : Nat)
    (out : String) :
    heap.writeAt? bound active out v = some (heap.writeAt level bound active out v) := by
  induction bound generalizing active level out v with
  -- with no bound left all arrays are being written already
  | zero =>
    cases v with
    | array handle =>
      unfold writeAt? writeAt
      by_cases hactive : active.contains handle = true
      · rw [if_pos hactive, if_pos hactive]
      · have hless := unseen_insert_add_le (fun _ => 1) hv hactive
        omega
    | _ => rfl
  | succ bound ih =>
    cases v with
    | array handle =>
      unfold writeAt? writeAt
      by_cases hactive : active.contains handle = true
      · rw [if_pos hactive, if_pos hactive]
      · have hless := unseen_insert_add_le (fun _ => 1) hv hactive
        rw [if_neg hactive, if_neg hactive]
        dsimp only
        rw [deepen_eq, getElem?_arrays_of_has hv]
        refine writeElements?_eq (fun w hw out => ?_) out
        exact ih (h.elements handle w (Array.mem_toList_iff.mp hw)) (by omega) _ out
    | _ => rfl

theorem display?_eq (h : heap.Sound) (hv : heap.Has v) :
    heap.display? v = some (heap.display v) := by
  rw [display_eq]
  exact writeAt?_eq h hv (Nat.le_trans (unseen_le _ _ _) (Nat.le_of_eq (sumBelow_one _))) 0 ""

/-- Arrays and objects are entered at most once each on the way down. -/
theorem exportAtChecked_eq (h : heap.Sound) {bound : Nat} {around : Surroundings} (hv : heap.Has v)
    (hbound : unseen (fun _ => 1) around.arrays.contains heap.arrays.size +
      unseen (fun _ => 1) around.objects.contains heap.objects.size ≤ bound) (level : Nat) :
    (heap.exportAtChecked bound around v).run = some (heap.exportAt? level bound around v) := by
  induction bound generalizing around level v with
  -- with no bound left everything is around
  | zero =>
    cases v with
    | array handle =>
      unfold exportAtChecked exportAt?
      by_cases haround : around.arrays.contains handle = true
      · rw [if_pos haround, if_pos haround]
        rfl
      · have hless := unseen_insert_add_le (fun _ => 1) hv haround
        omega
    | object handle =>
      unfold exportAtChecked exportAt?
      by_cases haround : around.objects.contains handle = true
      · rw [if_pos haround, if_pos haround]
        rfl
      · have hless := unseen_insert_add_le (fun _ => 1) hv haround
        omega
    | _ => rfl
  | succ bound ih =>
    cases v with
    | array handle =>
      unfold exportAtChecked exportAt?
      by_cases haround : around.arrays.contains handle = true
      · rw [if_pos haround, if_pos haround]
        rfl
      · have hless := unseen_insert_add_le (fun _ => 1) hv haround
        rw [if_neg haround, if_neg haround]
        dsimp only
        rw [deepen_eq, getElem?_arrays_of_has hv]
        refine map_run_eq (mapM_run_eq fun w hw => ?_) Datum.array
        refine ih (h.elements handle w (Array.mem_toList_iff.mp hw)) ?_ (level + 1)
        dsimp only
        omega
    | object handle =>
      unfold exportAtChecked exportAt?
      by_cases haround : around.objects.contains handle = true
      · rw [if_pos haround, if_pos haround]
        rfl
      · have hless := unseen_insert_add_le (fun _ => 1) hv haround
        rw [if_neg haround, if_neg haround]
        dsimp only
        rw [deepen_eq, getElem?_objects_of_has hv]
        refine map_run_eq (mapM_run_eq fun entry hentry => map_run_eq ?_ (entry.1, ·)) Datum.object
        refine ih (h.properties handle entry hentry) ?_ (level + 1)
        dsimp only
        omega
    | _ => rfl

theorem exportChecked_eq (h : heap.Sound) (hv : heap.Has v) :
    heap.exportChecked v = some (heap.exportDatum? v) := by
  have hunseen : ∀ seen n, unseen (fun _ => 1) seen n ≤ n := fun seen n =>
    Nat.le_trans (unseen_le _ seen n) (Nat.le_of_eq (sumBelow_one n))
  rw [exportDatum?_eq]
  exact exportAtChecked_eq h hv (Nat.add_le_add (hunseen _ _) (hunseen _ _)) 0

end Heap

/-! ## Accesses of operations -/

/-- A member that can be reached: the text of the key is good, the array or object is there, and so is
every element that the key may stand for. -/
def Location.InBounds (heap : Heap) : Location → Prop
  | .name _ => True
  | .member (.array handle) key =>
    heap.display? key = some (heap.display key) ∧
      ∃ elements, heap.arrays[handle]? = some elements ∧
        ∀ span s index t, Run.arrayIndex key elements.size span s = .ok index t →
          index < elements.size
  | .member (.object handle) key =>
    heap.display? key = some (heap.display key) ∧ ∃ entries, heap.objects[handle]? = some entries
  | .member _ _ => True

def Operation.InBounds (heap : Heap) : {α : Type} → Operation α → Prop
  | _, read location _ | _, write location _ _ | _, step _ location _ => location.InBounds heap
  | _, combine _ left right =>
    heap.display? left = some (heap.display left) ∧ heap.display? right = some (heap.display right)
  | _, display v => heap.display? v = some (heap.display v)
  | _, callMethod (.array handle) _ _ _ => ∃ elements, heap.arrays[handle]? = some elements
  | _, copyOut v _ => heap.exportChecked v = some (heap.exportDatum? v)
  | _, _ => True

/-- An index that is accepted is below the length. -/
theorem Run.lt_of_arrayIndex {key : Value} {length : Nat} {span : Span} {s t : State} {index : Nat}
    (h : Run.arrayIndex key length span s = .ok index t) : index < length := by
  unfold Run.arrayIndex at h
  -- a key that is no number is refused, and so is one out of range
  rcases hn : Run.indexNumber key with c | _ | n
  · rw [hn] at h
    cases h
  · rw [hn] at h
    cases h
  · have hread : Run.orCrash (Run.indexNumber key) s = .ok (some n) s := by
      rw [hn]
      rfl
    rw [bind_of_ok hread] at h
    dsimp only at h
    split at h
    · rename_i hrange
      cases h
      omega
    · cases h

/-- Reading and writing at a place stays within bounds. -/
theorem Location.inBounds {heap : Heap} (h : heap.Sound) {location : Location}
    (hoperands : ∀ v ∈ location.operands, heap.Has v) : location.InBounds heap := by
  cases location with
  | name name => trivial
  | member object key =>
    have hobject : heap.Has object := by
      cases key with
      | string text => exact hoperands object List.mem_cons_self
      | _ => exact hoperands object List.mem_cons_self
    -- a key is displayed, so it has to be there as well
    have hkey : heap.display? key = some (heap.display key) := by
      refine Heap.display?_eq h ?_
      cases key with
      | string text => trivial
      | _ => exact hoperands _ (List.mem_cons_of_mem _ List.mem_cons_self)
    cases object with
    | array handle =>
      exact ⟨hkey, _, Heap.getElem?_arrays_of_has hobject,
        fun _ _ _ _ hindex => Run.lt_of_arrayIndex hindex⟩
    | object handle => exact ⟨hkey, _, Heap.getElem?_objects_of_has hobject⟩
    | _ => trivial

/-- Every operation stays within bounds. -/
theorem Operation.inBounds {heap : Heap} (h : heap.Sound) {α : Type} {op : Operation α}
    (hoperands : ∀ v ∈ op.operands, heap.Has v) : op.InBounds heap := by
  cases op with
  | read location span | step op location span => exact Location.inBounds h hoperands
  | write location value span =>
    exact Location.inBounds h fun v hv => hoperands v (List.mem_cons_of_mem _ hv)
  | combine op left right =>
    exact ⟨Heap.display?_eq h (hoperands left List.mem_cons_self),
      Heap.display?_eq h (hoperands right (List.mem_cons_of_mem _ List.mem_cons_self))⟩
  | display v => exact Heap.display?_eq h (hoperands v List.mem_cons_self)
  | callMethod receiver method args span =>
    have hreceiver := hoperands receiver List.mem_cons_self
    cases receiver with
    | array handle => exact ⟨_, Heap.getElem?_arrays_of_has hreceiver⟩
    | _ => trivial
  | copyOut v span => exact Heap.exportChecked_eq h (hoperands v List.mem_cons_self)
  | _ => trivial

/-! ## Whole runs -/

/-- What holds of a relation that every operation keeps, along the whole course. -/
theorem Linked.heaps {r : Heap → Heap → Prop} (refl : ∀ heap, r heap heap)
    (trans : ∀ {a b c}, r a b → r b c → r a c) {s t : State} {events : List Event}
    (h : Linked s events t) (hstep : ∀ event ∈ events, r event.before.heap event.after.heap) :
    (∀ event ∈ events, r s.heap event.before.heap) ∧
      events.Pairwise (fun event later => r event.after.heap later.before.heap) ∧
        r s.heap t.heap := by
  induction events generalizing s with
  | nil =>
    refine ⟨fun _ hevent => absurd hevent List.not_mem_nil, .nil, ?_⟩
    rw [State.SameStore.heap h]
    exact refl _
  | cons event rest ih =>
    obtain ⟨hbefore, hrest⟩ := h
    have hsteps := List.forall_mem_cons.mp hstep
    obtain ⟨hfrom, hpairs, hend⟩ := ih hrest hsteps.2
    -- the store does not change between two events
    have hfirst : r s.heap event.after.heap := by
      rw [← hbefore.heap]
      exact hsteps.1
    refine ⟨fun later hlater => ?_, .cons hfrom hpairs, trans hfirst hend⟩
    rcases List.mem_cons.mp hlater with rfl | hlater
    · rw [hbefore.heap]
      exact refl _
    · exact trans hfirst (hfrom later hlater)

/-- The values that an operation gave. -/
def Event.values : Event → List Value
  | ⟨op, _, .ok a _⟩ => op.values a
  | ⟨_, _, .error _ _⟩ => []

theorem Regime.handles_covers (env : Env) : Regime.handles.Covers env fun _ => True where
  inherited := fun _ _ _ _ => trivial
  functions := fun _ => trivial
  literals := by
    intro value span _ heap
    cases value with
    | _ => trivial

theorem Regime.handles_program (program : Program) (context : RunContext) (limits : Limits)
    (collaborators : Collaborators) :
    Regime.handles.Keeps (program.env limits collaborators)
      (program.steps context limits collaborators) limits.start Regime.handles.Issues :=
  (Regime.handles_kept _).program (Regime.handles_covers _) (fun _ _ => trivial)
    (fun _ _ => trivial) (fun _ _ => trivial) (State.sound_start limits)

/-- Each operation of a run finds and leaves a sound state, is given and gives values that are there, and
stays within the bounds of memory. -/
theorem Program.handles_of_mem_events {program : Program} {context : RunContext} {limits : Limits}
    {collaborators : Collaborators} {event : Event}
    (hevent : event ∈ program.events context limits collaborators) :
    event.before.Sound ∧ event.after.Sound ∧
      (∀ v ∈ event.operation.operands, event.before.heap.Has v) ∧
      (∀ v ∈ event.values, event.after.heap.Has v) ∧
      event.before.heap.Extends event.after.heap ∧
      event.operation.InBounds event.before.heap := by
  have hkept := Regime.handles_kept (program.env limits collaborators)
  have hready := (Regime.handles_program program context limits collaborators).events event hevent
  have hresult := Steps.result_of_mem_events hevent
  -- the event is the operation performed in the state before it
  have hafter : event.after = Run.final (event.operation.perform _ event.before) :=
    congrArg Run.final hresult
  refine ⟨hready.sound, ?_, hready.operands, ?_, ?_, ?_⟩
  · rw [hafter]
    exact hkept.sound hready
  · intro v hv
    obtain ⟨op, before, result⟩ := event
    cases result with
    | ok a t => exact hkept.values hready hresult.symm v hv
    | error halt t => exact absurd hv List.not_mem_nil
  · rw [hafter]
    exact hkept.grows hready
  · exact Operation.inBounds (State.Sound.heap hready.sound) hready.operands

/-- Handles are good throughout a run. The run ends as its steps do, which take it from the start to
its last state by operations that find the heap as the one before left it. Before and after each of
them whatever a value in memory names is there and no key occurs twice; so is what the operation was
given and what it gave, among it what expressions and calls come to; the heap has only grown, by the
operation and from one operation to every later one; and no access to it was out of bounds. -/
theorem Program.run_keeps_handles (program : Program) (context : RunContext) (limits : Limits)
    (collaborators : Collaborators) :
    ∃ ending, program.run context limits collaborators = .ofResult ending ∧
      Linked limits.start (program.events context limits collaborators) (Run.final ending) ∧
      (Run.final ending).Sound ∧
      (∀ event ∈ program.events context limits collaborators,
        event.before.Sound ∧ event.after.Sound ∧
        (∀ v ∈ event.operation.operands, event.before.heap.Has v) ∧
        (∀ v ∈ event.values, event.after.heap.Has v) ∧
        event.before.heap.Extends event.after.heap ∧
        event.operation.InBounds event.before.heap) ∧
      (program.events context limits collaborators).Pairwise fun event later =>
        event.after.heap.Extends later.before.heap := by
  have hkeeps := Regime.handles_program program context limits collaborators
  have hlinked := program.linked_steps context limits collaborators
  obtain ⟨_, hpairs, _⟩ := hlinked.heaps Heap.Extends.refl Heap.Extends.trans fun event hevent =>
    (Program.handles_of_mem_events hevent).2.2.2.2.1
  exact ⟨_, program.run_eq_steps context limits collaborators, hlinked, hkeeps.sound,
    fun event hevent => Program.handles_of_mem_events hevent, hpairs⟩

end MeteredScript
