import MeteredScript.Heap

namespace MeteredScript

/-! # Values inside of values

Writing a value and copying it keep one set of the arrays and objects they are inside of: they enter
an array before its elements and leave it after them. Whatever lies between leaves the set as it was,
so the set may as well be handed down, and nothing handed back (`Heap.writeAt`, `Heap.exportAt?`). Main
statements: `Heap.display` and `Heap.exportDatum?` are these.
-/

namespace Heap

/-! ## Sets handed down -/

/-- Appends the texts of elements, separated by commas; null and undefined are empty. -/
def writeElements (write : String → Value → String) : String → List Value → String
  | out, [] => out
  | out, [v] => writeElement out v
  | out, v :: rest => writeElements write (writeElement out v ++ ",") rest
where
  writeElement (out : String) (v : Value) : String :=
    match v with
    | .null | .undefined => out
    | v => write out v

/-- Appends the text of a value. An array that is already being written is empty; `bound` is at
least the number of arrays that are not in `active`. -/
def writeAt (heap : Heap) (level bound : Nat) (active : Std.TreeSet Nat) (out : String) (v : Value) :
    String :=
  match v with
  | .number value => out ++ value.text
  | .nan => out ++ "NaN"
  | .string value => out ++ value
  | .boolean value => out ++ (if value then "true" else "false")
  | .null => out ++ "null"
  | .undefined => out ++ "undefined"
  | .object _ => out ++ "[object Object]"
  | .array handle =>
    if active.contains handle then out
    else
      match bound with
      | 0 => out
      | bound + 1 =>
        deepen level fun _ =>
          writeElements (writeAt heap (level + 1) bound (active.insert handle)) out
            (heap.elements handle).toList

/-- Copies a value off the heap, given the arrays and objects around it, which it may not contain;
`bound` is at least the number of arrays and objects that are not around it. -/
def exportAt? (heap : Heap) (level bound : Nat) (around : Surroundings) (v : Value) :
    Except RangeFault Datum :=
  match v with
  | .number value => .ok (.number value)
  | .nan => .ok .nan
  | .string value => .ok (.string value)
  | .boolean value => .ok (.boolean value)
  | .null => .ok .null
  | .undefined => .ok .undefined
  | .array handle =>
    if around.arrays.contains handle then .error .cyclicArray
    else
      match bound with
      | 0 => .ok (.array [])
      | bound + 1 =>
        deepen level fun _ => do
          let inside := { around with arrays := around.arrays.insert handle }
          let items ← (heap.elements handle).toList.mapM (exportAt? heap (level + 1) bound inside)
          return .array items
  | .object handle =>
    if around.objects.contains handle then .error .cyclicObject
    else
      match bound with
      | 0 => .ok (.object [])
      | bound + 1 =>
        deepen level fun _ => do
          let inside := { around with objects := around.objects.insert handle }
          let entries ← (heap.entries handle).mapM fun entry => do
            return (entry.1, ← exportAt? heap (level + 1) bound inside entry.2)
          return .object entries

/-! ## Entering and leaving -/

def SameMembers (left right : Std.TreeSet Nat) : Prop := ∀ k, left.contains k = right.contains k

namespace SameMembers

variable {left right : Std.TreeSet Nat}

theorem insert (h : SameMembers left right) (k : Nat) :
    SameMembers (left.insert k) (right.insert k) := fun i => by
  rw [Std.TreeSet.contains_insert, Std.TreeSet.contains_insert, h i]

/-- Leaving what was entered gives back the set, if it was not in it. -/
theorem erase_of_insert {k : Nat} (h : SameMembers left (right.insert k))
    (hk : right.contains k = false) : SameMembers (left.erase k) right := fun i => by
  rw [Std.TreeSet.contains_erase, h i, Std.TreeSet.contains_insert]
  by_cases hi : k = i
  · rw [← hi, hk, Nat.compare_eq_eq.2 rfl]
    rfl
  · have hne : (compare k i == .eq) = false := beq_false_of_ne fun heq => hi (Nat.compare_eq_eq.1 heq)
    rw [bne, hne]
    rfl

end SameMembers

/-- A computation with the set that gives what is computed from the set's members, and leaves them as
they were. -/
def Restores (x : StateM (Std.TreeSet Nat) String) (active : Std.TreeSet Nat) (text : String) : Prop :=
  ∀ entered, SameMembers entered active → (x entered).1 = text ∧ SameMembers (x entered).2 active

theorem restores_writeEach {write : String → Value → StateM (Std.TreeSet Nat) String}
    {active : Std.TreeSet Nat} {text : String → Value → String}
    (h : ∀ out v, Restores (write out v) active (text out v)) (values : List Value) :
    ∀ out, Restores (writeEach write out values) active (writeElements text out values) := by
  -- Null and undefined are written as nothing, so the set is not touched for them.
  have helement : ∀ out v, Restores (writeEach.writeElement write out v) active
      (writeElements.writeElement text out v) := by
    intro out v entered hentered
    cases v with
    | null | undefined => exact ⟨rfl, hentered⟩
    | _ => exact h out _ entered hentered
  induction values with
  | nil => exact fun out entered hentered => ⟨rfl, hentered⟩
  | cons v rest ih =>
    intro out entered hentered
    cases rest with
    | nil => exact helement out v entered hentered
    | cons next rest =>
      obtain ⟨htext, hleft⟩ := helement out v entered hentered
      have hrest := ih (writeElements.writeElement text out v ++ ",") _ hleft
      rw [← htext] at hrest
      have hcons : writeElements text out (v :: next :: rest) =
          writeElements text (writeElements.writeElement text out v ++ ",") (next :: rest) := rfl
      rw [hcons, ← htext]
      exact hrest

/-- Writing a value with a set of its own enters and leaves arrays so that the text is that with the
set handed down, and the set is in the end as it was. -/
theorem restores_write (heap : Heap) (bound : Nat) : ∀ level active out v,
    Restores (heap.write level bound out v) active (heap.writeAt level bound active out v) := by
  induction bound with
  | zero =>
    intro level active out v entered hentered
    cases v with
    | array handle =>
      -- With no bound left an array adds nothing, whether or not it is being written.
      have hboth : heap.write level 0 out (.array handle) entered = pure (out, entered) := by
        rw [write]
        change (ite (entered.contains handle) (pure out) _ : StateM _ _) entered = _
        split <;> rfl
      rw [hboth, writeAt.eq_def]
      exact ⟨(ite_self out).symm, hentered⟩
    | _ => exact ⟨rfl, hentered⟩
  | succ bound ih =>
    intro level active out v entered hentered
    cases v with
    | array handle =>
      rw [write, writeAt, deepen_eq, deepen_eq]
      change ((ite (entered.contains handle) (pure out) _ : StateM _ _) entered).1 = _ ∧
        SameMembers ((ite (entered.contains handle) (pure out) _ : StateM _ _) entered).2 active
      rw [hentered handle]
      cases hseen : active.contains handle with
      | true => exact ⟨rfl, hentered⟩
      | false =>
        -- The elements are written with the handle in the set, and it is taken out again behind them.
        obtain ⟨htext, hleft⟩ := restores_writeEach (ih (level + 1) (active.insert handle))
          (heap.elements handle).toList out _ (hentered.insert handle)
        exact ⟨htext, hleft.erase_of_insert hseen⟩
    | _ => exact ⟨rfl, hentered⟩

/-- The text of a value is written with the set of arrays handed down. -/
theorem display_eq (heap : Heap) (v : Value) :
    heap.display v = heap.writeAt 0 heap.arrays.size ∅ "" v :=
  (restores_write heap heap.arrays.size 0 ∅ "" v ∅ fun _ => rfl).1

/-! ## Copying -/

/-- The same arrays and objects. -/
structure Surroundings.Same (left right : Surroundings) : Prop where
  arrays : SameMembers left.arrays right.arrays
  objects : SameMembers left.objects right.objects

/-- A computation that gives what is computed from what it is inside of, and is in the end inside of
the same arrays and objects, if it does not fail. -/
def Returns {α : Type} (x : StateT Surroundings (Except RangeFault) α) (around : Surroundings)
    (copied : Except RangeFault α) : Prop :=
  ∀ entered : Surroundings, entered.Same around →
    match copied with
    | .ok a => ∃ left : Surroundings, x entered = .ok (a, left) ∧ left.Same around
    | .error fault => x entered = .error fault

namespace Returns

variable {α β : Type} {x : StateT Surroundings (Except RangeFault) α} {around : Surroundings}
  {copied : Except RangeFault α}

theorem pure (a : α) (around : Surroundings) : Returns (Pure.pure a) around (.ok a) :=
  fun entered hentered => ⟨entered, rfl, hentered⟩

theorem bind {f : α → StateT Surroundings (Except RangeFault) β} {g : α → Except RangeFault β}
    (hx : Returns x around copied) (hf : ∀ a, Returns (f a) around (g a)) :
    Returns (x >>= f) around (copied >>= g) := by
  intro entered hentered
  have hfirst := hx entered hentered
  cases copied with
  | error fault =>
    change StateT.bind x f entered = .error fault
    rw [StateT.bind, hfirst]
    rfl
  | ok a =>
    obtain ⟨left, hleft, hsame⟩ := hfirst
    have hrun : (x >>= f) entered = f a left := by
      change StateT.bind x f entered = f a left
      rw [StateT.bind, hleft]
      rfl
    rw [hrun]
    exact hf a left hsame

theorem mapM {f : α → StateT Surroundings (Except RangeFault) β} {g : α → Except RangeFault β}
    (h : ∀ a, Returns (f a) around (g a)) (inputs : List α) :
    Returns (inputs.mapM f) around (inputs.mapM g) := by
  induction inputs with
  | nil => exact pure [] around
  | cons a rest ih =>
    rw [List.mapM_cons, List.mapM_cons]
    exact (h a).bind fun b => ih.bind fun bs => pure (b :: bs) around

/-- A computation inside of one more array or object, which is left again when it has not failed. -/
theorem inside (enter leave : Surroundings → Surroundings) (f : α → β)
    (henter : ∀ entered, entered.Same around → (enter entered).Same (enter around))
    (hleave : ∀ entered, entered.Same (enter around) → (leave entered).Same around)
    (hx : Returns x (enter around) copied) :
    Returns (do modify enter; let a ← x; modify leave; return f a) around
      (copied >>= fun a => return f a) := by
  intro entered hentered
  have hinner := hx (enter entered) (henter entered hentered)
  have hrun : (do modify enter; let a ← x; modify leave; return f a :
      StateT Surroundings (Except RangeFault) β) entered =
        (x (enter entered) >>= fun result => .ok (f result.1, leave result.2)) := rfl
  rw [hrun]
  cases copied with
  | error fault =>
    change x (enter entered) = .error fault at hinner
    rw [hinner]
    rfl
  | ok a =>
    obtain ⟨left, hleft, hsame⟩ := hinner
    rw [hleft]
    exact ⟨leave left, rfl, hleave left hsame⟩

/-- A test of what the computation is inside of comes out as it does for what it is given. -/
theorem guarded {test : Surroundings → Bool} {fault : RangeFault}
    (htest : ∀ entered, entered.Same around → test entered = test around)
    (hx : test around = false → Returns x around copied) :
    Returns (get >>= fun entered => if test entered then throw fault else x) around
      (if test around then .error fault else copied) := by
  intro entered hentered
  have hrun : (get >>= fun entered => if test entered then throw fault else x) entered =
      (if test entered then .error fault else x entered) := by
    change (ite (test entered) (throw fault) _ : StateT Surroundings (Except RangeFault) α) entered = _
    split <;> rfl
  rw [hrun, htest entered hentered]
  cases hseen : test around with
  | true => rfl
  | false => exact hx hseen entered hentered

end Returns

/-- Copying a value with the arrays and objects entered and left on the way gives what copying gives
with them handed down, and leaves them as they were if it does not fail. -/
theorem returns_export? (heap : Heap) (bound : Nat) : ∀ level around v,
    Returns (heap.export? level bound v) around (heap.exportAt? level bound around v) := by
  induction bound with
  | zero =>
    intro level around v
    cases v with
    | array handle =>
      exact .guarded (fun _ hentered => hentered.arrays handle) fun _ => .pure _ around
    | object handle =>
      exact .guarded (fun _ hentered => hentered.objects handle) fun _ => .pure _ around
    | _ => exact .pure _ around
  | succ bound ih =>
    intro level around v
    cases v with
    | array handle =>
      refine .guarded (fun _ hentered => hentered.arrays handle) fun hseen => ?_
      rw [deepen_eq, deepen_eq]
      -- The handle is in the set exactly while the elements are exported.
      exact .inside (fun inner => { inner with arrays := inner.arrays.insert handle })
        (fun inner => { inner with arrays := inner.arrays.erase handle }) Datum.array
        (fun _ hentered => ⟨hentered.arrays.insert handle, hentered.objects⟩)
        (fun _ hentered => ⟨hentered.arrays.erase_of_insert hseen, hentered.objects⟩)
        (.mapM (ih (level + 1) _) _)
    | object handle =>
      refine .guarded (fun _ hentered => hentered.objects handle) fun hseen => ?_
      rw [deepen_eq, deepen_eq]
      exact .inside (fun inner => { inner with objects := inner.objects.insert handle })
        (fun inner => { inner with objects := inner.objects.erase handle }) Datum.object
        (fun _ hentered => ⟨hentered.arrays, hentered.objects.insert handle⟩)
        (fun _ hentered => ⟨hentered.arrays, hentered.objects.erase_of_insert hseen⟩)
        (.mapM (fun entry : String × Value =>
          (ih (level + 1) _ entry.2).bind fun d => .pure (entry.1, d) _) _)
    | _ => exact .pure _ around

/-- The data of a value is copied with the arrays and objects around it handed down. -/
theorem exportDatum?_eq (heap : Heap) (v : Value) : heap.exportDatum? v =
    heap.exportAt? 0 (heap.arrays.size + heap.objects.size) {} v := by
  have h := returns_export? heap (heap.arrays.size + heap.objects.size) 0 {} v {}
    ⟨fun _ => rfl, fun _ => rfl⟩
  change Functor.map Prod.fst (heap.export? 0 (heap.arrays.size + heap.objects.size) v {}) = _
  cases hcopied : heap.exportAt? 0 (heap.arrays.size + heap.objects.size) {} v with
  | error fault =>
    rw [hcopied] at h
    rw [h]
    rfl
  | ok d =>
    rw [hcopied] at h
    obtain ⟨left, hleft, -⟩ := h
    rw [hleft]
    rfl

end Heap

end MeteredScript
