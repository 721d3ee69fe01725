import MeteredScript.Proofs.Members

/-- Of two changes of one element the second is enough where it hides the first. -/
theorem Array.modify_modify_of_hides {α : Type} (f g : α → α) (hhides : ∀ x, g (f x) = g x)
    (xs : Array α) (i : Nat) : (xs.modify i f).modify i g = xs.modify i g := by
  apply Array.ext_getElem?
  intro j
  simp only [Array.getElem?_modify]
  split
  · rw [Option.map_map]
    exact congrArg (Option.map · xs[j]?) (funext hhides)
  · rfl

namespace MeteredScript

/-! # Runs of updates in front of a place

A run of `++` and `--` evaluates its place once and then steps it outward from the innermost step,
where each step reads the place again and writes it again. What carries this through a run of any
length is that a step leaves the place holding what it stored (`Location.Stored`), nothing else
changed, and that two stores in one place come to the second (`Location.Stored.trans`). Main
statement: the steps add up, or come to NaN, unless the place holds a cut text.
-/

/-! ## Places in memory -/

/-- A location is a variable of the latest call, an element of an array or a property of an object, and
holds a value; a property that is not there is undefined. -/
inductive Location.Holds (s : State) : Location → Value → Prop
  | name {name : String} {frame : Frame} {rest : List Frame} {v : Value} :
      s.frames.stack = frame :: rest → frame[name]? = some v → Holds s (.name name) v
  | element {handle index : Nat} {key v : Value} : key.IsIndex (s.heap.elements handle).size index →
      (s.heap.elements handle)[index]? = some v → Holds s (.member (.array handle) key) v
  | property {handle : Nat} {key v : Value} : s.heap.Has (.object handle) →
      (s.heap.property? handle (s.heap.display key)).getD .undefined = v →
      Holds s (.member (.object handle) key) v

/-- Frames and heap of the second state are those of the first with the value at the location. -/
inductive Location.Stored (v : Value) (s t : State) : Location → Prop
  | name {name : String} {frame frame' : Frame} {rest : List Frame} :
      s.frames.stack = frame :: rest → t.frames.stack = frame' :: rest →
      (∀ other, frame'[other]? = if name = other then some v else frame[other]?) →
      t.frames.globals = s.frames.globals → t.heap = s.heap → Stored v s t (.name name)
  | element {handle index : Nat} {key : Value} : key.IsIndex (s.heap.elements handle).size index →
      t.heap = s.heap.setElement handle index v → t.frames = s.frames →
      Stored v s t (.member (.array handle) key)
  | property {handle : Nat} {key : Value} : s.heap.Has (.object handle) →
      t.heap = s.heap.setProperty handle (s.heap.display key) v → t.frames = s.frames →
      Stored v s t (.member (.object handle) key)

/-- What writing a location costs: a unit for a property that is not there yet. -/
def Location.entryPrice (heap : Heap) : Location → Nat
  | .member (.object handle) key =>
    match heap.property? handle (heap.display key) with
    | some _ => 0
    | none => 1
  | _ => 0

/-- Of two values put under one key the second stays. -/
theorem Entries.put_put {α : Type} (entries : Entries α) (key : String) (v w : α) :
    (entries.put key v).put key w = entries.put key w := by
  induction entries with
  | nil => simp [put]
  | cons first rest ih =>
    obtain ⟨k, u⟩ := first
    by_cases hk : k = key
    · simp [put, hk]
    · simp [put, hk, ih]

namespace Heap

/-- Texts do not show what objects hold. -/
theorem display_setProperty (heap : Heap) (handle : Nat) (key : String) (value v : Value) :
    (heap.setProperty handle key value).display v = heap.display v := by
  have hcuts : ∀ {around : List Nat} {v : Value} {d : Datum}, heap.CutsTo around v d →
      (heap.setProperty handle key value).CutsTo around v d := by
    intro around v d h
    induction h with
    | scalar hscalar => exact .scalar hscalar
    | object handle entries => exact .object handle entries
    | again hin => exact .again hin
    | array hnot hsize _ ih => exact .array hnot hsize ih
  obtain ⟨d, hd⟩ := heap.exists_cutsTo [] v
  rw [(hcuts hd).display_eq, hd.display_eq]

/-- Of two writes to one element the second stays. -/
theorem setElement_setElement (heap : Heap) (handle index : Nat) (v w : Value) :
    (heap.setElement handle index v).setElement handle index w = heap.setElement handle index w :=
  congrArg (Heap.mk · heap.objects)
    (Array.modify_modify_of_hides (fun xs : Array Value => xs.setIfInBounds index v)
      (fun xs => xs.setIfInBounds index w) (fun _ => Array.setIfInBounds_setIfInBounds ..) heap.arrays
      handle)

/-- Of two writes to one property the second stays. -/
theorem setProperty_setProperty (heap : Heap) (handle : Nat) (key : String) (v w : Value) :
    (heap.setProperty handle key v).setProperty handle key w = heap.setProperty handle key w :=
  congrArg (Heap.mk heap.arrays ·)
    (Array.modify_modify_of_hides (fun entries : Entries Value => entries.put key v)
      (fun entries => entries.put key w) (fun entries => entries.put_put key v w) heap.objects handle)

end Heap

namespace Location

variable {location : Location} {v w : Value} {s t u : State}

theorem Holds.of_same (h : location.Holds s v) (hheap : t.heap = s.heap)
    (hframes : t.frames = s.frames) :
    location.Holds t v := by
  cases h with
  | name hstack hv => exact .name (hframes ▸ hstack) hv
  | element hindex hv => exact .element (hheap ▸ hindex) (hheap ▸ hv)
  | property hthere hv => exact .property (hheap ▸ hthere) (hheap ▸ hv)

theorem Stored.of_same (h : location.Stored v s t) {s' : State} (hheap : s.heap = s'.heap)
    (hframes : s.frames = s'.frames) : location.Stored v s' t := by
  cases h with
  | name hstack hstack' hframe hglobals hsame =>
    exact .name (hframes ▸ hstack) hstack' hframe (hframes ▸ hglobals) (hheap ▸ hsame)
  | element hindex hset hsame => exact .element (hheap ▸ hindex) (hheap ▸ hset) (hframes ▸ hsame)
  | property hthere hset hsame => exact .property (hheap ▸ hthere) (hheap ▸ hset) (hframes ▸ hsame)

theorem Stored.holds (h : location.Stored v s t) : location.Holds t v := by
  cases h with
  | @name name _ _ _ _ hstack hframe _ _ =>
    exact .name hstack ((hframe name).trans (if_pos rfl))
  | @element handle index key hindex hset _ =>
    have helements : t.heap.elements handle = (s.heap.elements handle).setIfInBounds index v := by
      rw [hset, Heap.elements_setElement, if_pos rfl]
    have hindex' : key.IsIndex (t.heap.elements handle).size index := by
      rw [helements, Array.size_setIfInBounds]
      exact hindex
    refine .element hindex' ?_
    rw [helements]
    exact Array.getElem?_setIfInBounds_self_of_lt (Run.lt_of_isIndex hindex)
  -- the key is displayed on the new heap, and still the same text
  | @property handle key hthere hset _ =>
    have hthere' : t.heap.Has (.object handle) := by
      rw [hset]
      exact Nat.lt_of_lt_of_eq hthere Array.size_modify.symm
    refine .property hthere' ?_
    rw [hset, Heap.display_setProperty, Heap.property?_setProperty hthere, if_pos ⟨rfl, rfl⟩]
    rfl

/-- Of two values stored in one place the second stays. -/
theorem Stored.trans (h : location.Stored v s t) (h' : location.Stored w t u) :
    location.Stored w s u := by
  cases h with
  | name hs ht hframe hglobals hheap =>
    cases h' with
    | name ht' hu hframe' hglobals' hheap' =>
      cases ht.symm.trans ht'
      refine .name hs hu (fun other => ?_) (hglobals'.trans hglobals) (hheap'.trans hheap)
      rw [hframe', hframe]
      split
      · rfl
      · rfl
  | @element handle index key hindex hset hframes =>
    cases h' with
    | @element _ index' _ hindex' hset' hframes' =>
      -- the first store keeps the length, so the key stands for the same index in the second
      have hsize : (t.heap.elements handle).size = (s.heap.elements handle).size := by
        rw [hset, Heap.elements_setElement, if_pos rfl, Array.size_setIfInBounds]
      rw [hsize] at hindex'
      cases Run.isIndex_unique hindex hindex'
      refine .element hindex ?_ (hframes'.trans hframes)
      rw [hset', hset, Heap.setElement_setElement]
  | property hthere hset hframes =>
    cases h' with
    | property _ hset' hframes' =>
      refine .property hthere ?_ (hframes'.trans hframes)
      rw [hset', hset, Heap.display_setProperty, Heap.setProperty_setProperty]

theorem Stored.entryPrice_eq_zero (h : location.Stored v s t) : location.entryPrice t.heap = 0 := by
  cases h with
  | name | element => rfl
  | property hthere hset _ =>
    dsimp only [entryPrice]
    rw [hset, Heap.display_setProperty, Heap.property?_setProperty hthere, if_pos ⟨rfl, rfl⟩]

end Location

/-! ## Spending -/

theorem saturate_mono {m n : Nat} (h : m ≤ n) : saturate m ≤ saturate n := by
  unfold saturate
  omega

theorem saturate_saturate_add (m n : Nat) : saturate (saturate m + n) = saturate (m + n) := by
  unfold saturate
  omega

/-- The state in which so many steps of a run have been entered. -/
def State.entered (s : State) (count : Nat) : State :=
  { s with meter := s.meter.charge count, entries := s.entries + count }

theorem State.entered_entered (s : State) (m n : Nat) :
    (s.entered m).entered n = s.entered (m + n) := by
  have hmeter : (s.meter.charge m).charge n = s.meter.charge (m + n) := by
    rw [Meter.charge, Meter.charge_used, saturate_saturate_add, Nat.add_assoc]
    rfl
  rw [entered, entered, entered, hmeter, Nat.add_assoc]

/-- The meter counts so many units more, as far as it counts, and nothing was entered. -/
structure State.Spends (units : Nat) (s t : State) : Prop where
  limit : t.meter.limit = s.meter.limit
  used : ∀ more, saturate (t.meter.used + more) = saturate (s.meter.used + (units + more))
  entries : t.entries = s.entries

namespace State.Spends

variable {m n : Nat} {s t u : State}

theorem of_same (hmeter : t.meter = s.meter) (hentries : t.entries = s.entries) : s.Spends 0 t :=
  ⟨by rw [hmeter], fun more => by rw [hmeter, Nat.zero_add], hentries⟩

theorem trans (h : s.Spends m t) (h' : t.Spends n u) : s.Spends (m + n) u := by
  refine ⟨h'.limit.trans h.limit, fun more => ?_, h'.entries.trans h.entries⟩
  rw [h'.used, h.used, Nat.add_assoc]

theorem of_charge (hmeter : t.meter = s.meter.charge n) (hentries : t.entries = s.entries) :
    s.Spends n t := by
  refine ⟨by rw [hmeter, Meter.charge_limit], fun more => ?_, hentries⟩
  rw [hmeter, Meter.charge_used, saturate_saturate_add, Nat.add_assoc]

theorem fits (h : s.Spends m t) (hfits : saturate (s.meter.used + (m + n)) ≤ s.meter.limit) :
    saturate (t.meter.used + n) ≤ t.meter.limit := by
  rw [h.used, h.limit]
  exact hfits

end State.Spends

namespace Run

variable {location : Location} {v old : Value} {s t : State} {span : Span}

/-! ## One step -/

/-- The number that a step starts from is the one the value stands for, which arrays and objects have
none of. -/
theorem stepNumber_eq (v : Value) : stepNumber v = v.toNumber := by
  cases v <;> rfl

theorem toNumber?_ofNumber? (n : Option Decimal) : (Value.ofNumber? n).toNumber? = n := by
  cases n <;> rfl

theorem isCut_ofNumber? (n : Option Decimal) : (Value.ofNumber? n).isCut = false := by
  cases n <;> rfl

/-- What a step costs for the number it starts from. -/
def stepPrice (n : Option Decimal) : Nat := (n.map Decimal.words).getD 0

/-- Reading gives what a place holds. -/
theorem readLocation_of_holds (h : location.Holds s v) : readLocation location span s = .ok v s := by
  cases h with
  | @name name frame rest _ hstack hv =>
    -- the name is in the latest frame, which is looked at first
    have hlookup : lookup name s = .ok (some v) s := by
      have hget : s.frames.get? name = some v := by
        unfold Frames.get?
        rw [hstack]
        dsimp only
        rw [hv, Option.some_or]
      rw [← hget]
      rfl
    exact bind_of_ok hlookup
  | @element handle index key _ hindex hv =>
    have hread : getMember (.array handle) key span s = _ := getMember_element hindex
    rw [hv] at hread
    exact hread
  | property _ hv =>
    subst hv
    rfl

/-- Writing to a place that holds something stores the value, if there is enough left to pay. -/
theorem writeLocation_of_holds (v : Value) (span : Span) (h : location.Holds s old)
    (hfits : saturate (s.meter.used + location.entryPrice s.heap) ≤ s.meter.limit) :
    ∃ t, writeLocation location v span s = .ok () t ∧ location.Stored v s t ∧
      s.Spends (location.entryPrice s.heap) t := by
  cases h with
  | @name name frame rest _ hstack hv =>
    have hlocal : s.frames.isLocal name = true := by
      unfold Frames.isLocal
      rw [hstack]
      dsimp only
      rw [Std.TreeMap.contains_eq_isSome_getElem?, hv]
      rfl
    have hset := setVariable_apply name v s
    rw [if_pos hlocal] at hset
    have hstack' : (s.frames.define name v).stack = frame.insert name v :: rest := by
      unfold Frames.define
      rw [hstack]
    have hglobals : (s.frames.define name v).globals = s.frames.globals :=
      (s.frames.sameBelow_define name v).globals
    refine ⟨{ s with frames := s.frames.define name v }, bind_of_ok hset, ?_, .of_same rfl rfl⟩
    refine .name hstack hstack' (fun other => ?_) hglobals rfl
    rw [Std.TreeMap.getElem?_insert]
    simp only [Std.compare_eq_iff_eq]
  | @element handle index key _ hindex _ =>
    exact ⟨_, setMember_element hindex, .element hindex rfl rfl, .of_same rfl rfl⟩
  | @property handle key _ hthere _ =>
    rw [writeLocation, setMember_property]
    -- only a property that is not there yet is paid for
    unfold Location.entryPrice at hfits ⊢
    dsimp only at hfits ⊢
    cases hold : s.heap.property? handle (s.heap.display key) with
    | some known => exact ⟨_, rfl, .property hthere rfl rfl, .of_same rfl rfl⟩
    | none =>
      rw [hold] at hfits
      have hpaid : chargeEntry none s = .ok () { s with meter := s.meter.charge 1 } := charge_of_le hfits
      rw [bind_of_ok hpaid]
      exact ⟨_, rfl, .property hthere rfl rfl, .of_charge rfl rfl⟩

/-- A step stores the number after the one it found, or NaN, and changes nothing else. -/
theorem stepLocation_of_holds (op : UpdateOp) (span : Span) (h : location.Holds s old)
    (hcut : old.isCut = false)
    (hfits : saturate (s.meter.used + (stepPrice old.toNumber? + location.entryPrice s.heap)) ≤
      s.meter.limit) :
    ∃ t, stepLocation op location span s =
        .ok (old.toNumber?, .ofNumber? (old.toNumber?.map (step op))) t ∧
      location.Stored (.ofNumber? (old.toNumber?.map (step op))) s t ∧
      s.Spends (stepPrice old.toNumber? + location.entryPrice s.heap) t := by
  -- a step of no number costs nothing
  have hpaid : ∃ paid, chargeStep old.toNumber? s = .ok () paid ∧ paid.heap = s.heap ∧
      paid.frames = s.frames ∧ s.Spends (stepPrice old.toNumber?) paid := by
    cases hn : old.toNumber? with
    | none => exact ⟨s, rfl, rfl, rfl, .of_same rfl rfl⟩
    | some n =>
      rw [hn] at hfits
      have hle := Nat.le_trans (saturate_mono (Nat.add_le_add_left (Nat.le_add_right ..) _)) hfits
      exact ⟨_, charge_of_le hle, rfl, rfl, .of_charge rfl rfl⟩
  obtain ⟨paid, hcharge, hheap, hframes, hspends⟩ := hpaid
  rw [← hheap] at hfits ⊢
  obtain ⟨t, hwrite, hstored, hspends'⟩ := writeLocation_of_holds
    (.ofNumber? (old.toNumber?.map (step op))) span (h.of_same hheap hframes) (hspends.fits hfits)
  refine ⟨t, ?_, hstored.of_same hheap hframes, hspends.trans hspends'⟩
  have hnumber : orCrash (stepNumber old) s = .ok old.toNumber? s := by
    rw [stepNumber_eq, Value.toNumber_of_not_isCut hcut]
    rfl
  unfold stepLocation
  rw [bind_of_ok (readLocation_of_holds h), bind_of_ok hnumber, bind_of_ok hcharge, bind_of_ok hwrite]
  rfl

/-- A step from a cut text crashes before anything is paid for or written. -/
theorem stepLocation_of_isCut (op : UpdateOp) (span : Span) (h : location.Holds s old)
    (hcut : old.isCut = true) :
    stepLocation op location span s = .error (.crashed .insideCharacter) s := by
  unfold stepLocation
  rw [bind_of_ok (readLocation_of_holds h), stepNumber_eq, Value.toNumber_of_isCut hcut]
  rfl

/-! ## A run of steps -/

def stepOutward (op : UpdateOp) (span : Span) (location : Location) : List (UpdateOp × Span) → Run Value
  | [] => do return (← stepLocation op location span).2
  | (op', span') :: inner => do
    let _ ← stepOutward op' span' location inner
    return (← stepLocation op location span).2

/-- Enters so many nested steps. -/
def enterTimes : Nat → Run Unit
  | 0 => pure ()
  | count + 1 => do
    enter
    enterTimes count

/-- The place is evaluated once, and then stepped from the inside out. -/
theorem stepBefore_eq (sub : Evaluators) (op : UpdateOp) (span : Span) (target : Place)
    (inner : List (UpdateOp × Span)) :
    stepBefore sub op span target inner = (do
      enterTimes inner.length
      let location ← locate sub target
      return (location, ← stepOutward op span location inner)) := by
  induction inner generalizing op span with
  | nil => simp only [stepBefore, stepOutward, enterTimes, List.length_nil, bind_assoc, pure_bind]
  | cons first inner ih =>
    simp only [stepBefore, stepOutward, enterTimes, List.length_cons, ih, bind_assoc, pure_bind]

/-- The place is evaluated once, between entering the steps and taking them. -/
theorem evalExpr_updateBefore (env : Env) (sub : Evaluators) (op : UpdateOp) (span : Span)
    (inner : List (UpdateOp × Span)) (target : Place) :
    evalExpr env sub (.updateBefore op span inner target) = (do
      enterTimes (inner.length + 1)
      let location ← locate sub target
      stepOutward op span location inner) := by
  simp only [evalExpr, exprBody, stepBefore_eq, enterTimes, bind_assoc, pure_bind, bind_pure]

/-- What a run of steps costs, written from the outermost, for the number it starts from. -/
def stepsPrice (n : Option Decimal) : List UpdateOp → Nat
  | [] => 0
  | _ :: inner => stepsPrice n inner + stepPrice (n.map (inner.foldr step ·))

/-- What a run of steps comes to: the last step stores the sum. -/
theorem stepOutward_of_holds (op : UpdateOp) (span : Span) (inner : List (UpdateOp × Span))
    (h : location.Holds s old) (hcut : old.isCut = false)
    (hfits : saturate (s.meter.used + (stepsPrice old.toNumber? (op :: inner.map Prod.fst) +
      location.entryPrice s.heap)) ≤ s.meter.limit) :
    ∃ t, stepOutward op span location inner s =
        .ok (.ofNumber? (old.toNumber?.map ((op :: inner.map Prod.fst).foldr step ·))) t ∧
      location.Stored (.ofNumber? (old.toNumber?.map ((op :: inner.map Prod.fst).foldr step ·))) s t ∧
      s.Spends (stepsPrice old.toNumber? (op :: inner.map Prod.fst) + location.entryPrice s.heap) t := by
  -- The induction is from the innermost step outward; the place holds what the steps so far came to.
  induction inner generalizing op span with
  | nil =>
    have hprice : stepsPrice old.toNumber? [op] = stepPrice old.toNumber? := by
      simp only [stepsPrice, List.foldr_nil, Option.map_id', Nat.zero_add]
    rw [List.map_nil, hprice] at hfits ⊢
    obtain ⟨t, hstep, hstored, hspends⟩ := stepLocation_of_holds op span h hcut hfits
    exact ⟨t, bind_of_ok hstep, hstored, hspends⟩
  | cons first inner ih =>
    obtain ⟨op', span'⟩ := first
    have hprice : stepsPrice old.toNumber? (op :: op' :: inner.map Prod.fst) +
        location.entryPrice s.heap =
          stepsPrice old.toNumber? (op' :: inner.map Prod.fst) + location.entryPrice s.heap +
            stepPrice (old.toNumber?.map ((op' :: inner.map Prod.fst).foldr step ·)) :=
      Nat.add_right_comm ..
    rw [List.map_cons, hprice] at hfits ⊢
    have hinnerFits := Nat.le_trans (saturate_mono (Nat.add_le_add_left (Nat.le_add_right ..) _)) hfits
    obtain ⟨t, hinner, hstored, hspends⟩ := ih op' span' hinnerFits
    have hlastFits := hspends.fits hfits
    rw [← Nat.add_zero (stepPrice _), ← hstored.entryPrice_eq_zero,
      ← toNumber?_ofNumber? (Option.map ..)] at hlastFits
    obtain ⟨u, hlast, hstored', hspends'⟩ :=
      stepLocation_of_holds op span hstored.holds (isCut_ofNumber? _) hlastFits
    rw [toNumber?_ofNumber?, Option.map_map] at hlast hstored'
    rw [toNumber?_ofNumber?, hstored.entryPrice_eq_zero] at hspends'
    exact ⟨u, (bind_of_ok hinner).trans (bind_of_ok hlast), hstored.trans hstored',
      hspends.trans hspends'⟩

theorem stepOutward_of_isCut (op : UpdateOp) (span : Span) (inner : List (UpdateOp × Span))
    (h : location.Holds s old) (hcut : old.isCut = true) :
    stepOutward op span location inner s = .error (.crashed .insideCharacter) s := by
  induction inner generalizing op span with
  | nil => exact bind_of_error (stepLocation_of_isCut op span h hcut)
  | cons first inner ih => exact bind_of_error (ih first.1 first.2)

/-- How far a run of steps moves a number. -/
def netSteps (ops : List UpdateOp) : Int := ops.count .increment - ops.count .decrement

/-- Steps in a row add up to their number, those back subtracted. -/
theorem foldr_step (ops : List UpdateOp) (n : Decimal) :
    ops.foldr step n = n.add (.ofInt (netSteps ops)) := by
  induction ops with
  | nil => simp [netSteps, Decimal.add, Decimal.ofInt]
  | cons op ops ih =>
    rw [List.foldr_cons, ih]
    -- numbers are integers in units of the last digit, so one is `10 ^ 18` of them
    cases op with
    | increment =>
      have hnet : netSteps (.increment :: ops) = netSteps ops + 1 := by
        rw [netSteps, netSteps, List.count_cons_self,
          List.count_cons_of_ne (by decide : UpdateOp.increment ≠ .decrement)]
        omega
      rw [hnet, step, Decimal.add, Decimal.add, Decimal.add, Decimal.ofInt, Decimal.ofInt, Int.add_mul,
        Int.one_mul, Int.add_assoc]
      rfl
    | decrement =>
      have hnet : netSteps (.decrement :: ops) = netSteps ops - 1 := by
        rw [netSteps, netSteps, List.count_cons_self,
          List.count_cons_of_ne (by decide : UpdateOp.decrement ≠ .increment)]
        omega
      rw [hnet, step, Decimal.add, Decimal.sub, Decimal.add, Decimal.ofInt, Decimal.ofInt, Int.sub_mul,
        Int.one_mul, ← Int.add_sub_assoc]
      rfl

/-- Several entries in a row, if there is enough left for all of them. -/
theorem enterTimes_of_le {count : Nat} {s : State}
    (hfits : saturate (s.meter.used + (count + 1)) ≤ s.meter.limit) :
    enterTimes (count + 1) s = .ok () (s.entered (count + 1)) := by
  induction count generalizing s with
  | zero => exact bind_of_ok (charge_of_le hfits)
  | succ count ih =>
    have hone : saturate (s.meter.used + 1) ≤ s.meter.limit :=
      Nat.le_trans (saturate_mono (by omega)) hfits
    -- after one entry there is enough for the others
    have hrest : saturate ((s.entered 1).meter.used + (count + 1)) ≤ s.meter.limit := by
      rw [State.entered, Meter.charge_used, saturate_saturate_add, Nat.add_assoc, Nat.add_comm 1]
      exact hfits
    have henter : enter s = .ok () (s.entered 1) := charge_of_le hone
    have hsum : s.entered (count + 1 + 1) = (s.entered 1).entered (count + 1) := by
      rw [State.entered_entered, Nat.add_comm 1]
    rw [hsum, ← ih hrest]
    exact bind_of_ok henter

/-- Steps in front of a place, however many, find it once and add up: what it held, read as a number,
plus the steps up less the steps down is what it holds then and what they give, or else NaN. Nothing but
the place has changed since it was found, and nothing but the steps was paid for. This is so unless the
place holds a cut text: then they crash, with the place as it was found. -/
theorem updateBefore_adds_up (env : Env) (sub : Evaluators) (op : UpdateOp) (span : Span)
    (inner : List (UpdateOp × Span)) (target : Place) :
    (evalExpr env sub (.updateBefore op span inner target) = do
      enterTimes (inner.length + 1)
      let location ← locate sub target
      stepOutward op span location inner) ∧
    ∀ (s s' : State) (location : Location) (old : Value),
      let ops := op :: inner.map Prod.fst
      let new : Value := .ofNumber? (old.toNumber?.map fun n => n.add (.ofInt (netSteps ops)))
      let price := stepsPrice old.toNumber? ops + location.entryPrice s'.heap
      saturate (s.meter.used + (inner.length + 1)) ≤ s.meter.limit →
      locate sub target (s.entered (inner.length + 1)) = .ok location s' →
      location.Holds s' old →
      saturate (s'.meter.used + price) ≤ s'.meter.limit →
      ((∃ t, evalExpr env sub (.updateBefore op span inner target) s = .ok new t ∧
        location.Holds t new ∧ location.Stored new s' t ∧ s'.Spends price t) ↔ old.isCut = false) ∧
      (old.isCut = true →
        evalExpr env sub (.updateBefore op span inner target) s =
          .error (.crashed .insideCharacter) s') := by
  refine ⟨evalExpr_updateBefore env sub op span inner target, ?_⟩
  intro s s' location old ops new price hentered hlocate hholds hfits
  -- all that is left is to step the place, in the state in which it was found
  have heval : evalExpr env sub (.updateBefore op span inner target) s =
      stepOutward op span location inner s' := by
    rw [evalExpr_updateBefore, bind_of_ok (enterTimes_of_le hentered), bind_of_ok hlocate]
  rw [heval]
  refine ⟨⟨?_, fun hcut => ?_⟩, stepOutward_of_isCut op span inner hholds⟩
  · rintro ⟨t, ht, -⟩
    rw [← Bool.not_eq_true]
    intro hcut
    cases ht.symm.trans (stepOutward_of_isCut op span inner hholds hcut)
  · obtain ⟨t, hsteps, hstored, hspends⟩ := stepOutward_of_holds op span inner hholds hcut hfits
    have hnew : Value.ofNumber? (old.toNumber?.map (ops.foldr step ·)) = new := by
      simp only [foldr_step]
      rfl
    rw [hnew] at hsteps hstored
    exact ⟨t, hsteps, hstored.holds, hstored, hspends⟩

/-- `++ ++ -- ["7"][false]` makes one array, whose element ends as 8. -/
theorem updateBefore_adds_up_in_new_array :
    let sub := evaluators default 0 2
    let target : Place := .index (.array [.literal (.string "7") {}] {})
      (.literal (.boolean false) {}) {}
    let s : State := { meter := { limit := 20 } }
    ∃ t, evalExpr default sub (.updateBefore .increment {} [(.increment, {}), (.decrement, {})]
      target) s =
        .ok (.number (.ofInt 8)) t ∧
      t.heap = { arrays := #[#[.number (.ofInt 8)]] } ∧ t.frames = {} := by
  intro sub target s
  have hnumber : (Value.string "7").toNumber? = some (.ofInt 7) := by
    rw [Value.toNumber?, Value.toNumber, Decimal.parse_eq]
    decide +kernel
  have hcut : (Value.string "7").isCut = false := by decide +kernel
  let found : State := { heap := { arrays := #[#[.string "7"]] }, meter := ⟨20, 8⟩, entries := 6 }
  have hlocate : locate sub target (s.entered 3) = .ok (.member (.array 0) (.boolean false)) found := rfl
  have hholds : Location.Holds found (.member (.array 0) (.boolean false)) (.string "7") :=
    .element (.boolean Nat.one_pos) rfl
  have hadds :=
    (updateBefore_adds_up default sub .increment {} [(.increment, {}), (.decrement, {})]
      target).2 s found
      _ _ (by decide) hlocate hholds (by rw [hnumber]; decide +kernel)
  obtain ⟨t, heval, -, hstored, -⟩ := hadds.1.mpr hcut
  rw [hnumber] at heval hstored
  cases hstored with
  | element hindex hset hframes =>
    cases isIndex_unique hindex (.boolean Nat.one_pos)
    exact ⟨t, heval, hset, hframes⟩

/-- `++ ["0é"][false]` is not NaN. -/
theorem updateBefore_of_cut_text :
    let target : Place := .index (.array [.literal (.string "0é") {}] {})
      (.literal (.boolean false) {}) {}
    let s : State := { meter := { limit := 20 } }
    ∀ v t, evalExpr default (evaluators default 0 2) (.updateBefore .increment {} [] target) s ≠
      .ok v t := by
  intro target s v t h
  have hcut : (Value.string "0é").isCut = true := by decide +kernel
  let found : State := { heap := { arrays := #[#[.string "0é"]] }, meter := ⟨20, 6⟩, entries := 4 }
  have hlocate : locate (evaluators default 0 2) target
      (s.entered (([] : List (UpdateOp × Span)).length + 1)) =
      .ok (.member (.array 0) (.boolean false)) found := rfl
  have hholds : Location.Holds found (.member (.array 0) (.boolean false)) (.string "0é") :=
    .element (.boolean Nat.one_pos) rfl
  rw [evalExpr_updateBefore, bind_of_ok (enterTimes_of_le (by decide)), bind_of_ok hlocate,
    stepOutward_of_isCut .increment {} [] hholds hcut] at h
  cases h

end Run

end MeteredScript
