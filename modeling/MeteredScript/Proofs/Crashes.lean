import MeteredScript.Proofs.Bitwise
import MeteredScript.Proofs.Equality
import MeteredScript.Proofs.PrefixUpdates
import MeteredScript.Proofs.Termination

namespace MeteredScript

/-! # Runs that crash

Every run ends, but not every run ends with a value or an error: where a cut text is read as a number it
crashes. Which values an operation reads as numbers is said by `Operation.coerced`, and an operation
crashes just if one of them is cut (`Operation.crashesIff`). A run crashes just if one of its operations
does, for nothing else that a run consists of can. Main statement: `Program.run_ends`.
-/

/-! ## What is read as a number -/

def Location.indexKeys : Location → List Value
  | .member (.array _) key => [key]
  | _ => []

namespace Value

/-- What a value is compared as with a scalar: arrays and objects as their texts. -/
def asScalar (heap : Heap) (v : Value) : Value :=
  if v.isContainer then .string (heap.display v) else v

/-- What is read as numbers to compare two values for equality: two scalars of different kinds, null,
undefined and NaN apart. -/
def equated (heap : Heap) (left right : Value) : List Value :=
  if left.isContainer && right.isContainer then []
  else
    let (a, b) := (left.asScalar heap, right.asScalar heap)
    if a.isPlain && b.isPlain && a.kind != b.kind then [a, b] else []

/-- What is read as numbers to order two values: not two strings, and the second value only if the first
is a number. -/
def ordered (left right : Value) : List Value :=
  match left, right with
  | .string _, .string _ => []
  | _, _ => left :: if left.toNumber?.isSome then [right] else []

/-- What a comparison reads as numbers. -/
def compared (heap : Heap) (op : Comparison) (left right : Value) : List Value :=
  match op with
  | .eq | .ne => equated heap left right
  | .strictEq | .strictNe => []
  | .lt | .gt | .le | .ge => ordered left right

end Value

/-- What an operator between two values reads as numbers. -/
def BinaryOp.coerced (heap : Heap) (op : BinaryOp) (left right : Value) : List Value :=
  match op with
  | .compare op => Value.compared heap op left right
  | .arith .add =>
    if Run.isObject left || Run.isObject right || Run.isTextual left || Run.isTextual right then []
    else [left, right]
  | .arith _ => [left, right]

/-- What an operator in front of a value reads as a number. -/
def UnaryOp.coerced (op : UnaryOp) (v : Value) : List Value :=
  match op with
  | .plus | .minus | .bitNot => [v]
  | .not | .typeof | .void => []

/-- The values that an operation reads as numbers, in the state that it finds. A step reads what the
location holds. -/
def Operation.coerced (s : State) : {α : Type} → Operation α → List Value
  | _, read location _ | _, write location _ _ => location.indexKeys
  | _, step _ location span =>
    location.indexKeys ++
      match Run.readLocation location span s with
      | .ok v _ => [v]
      | .error _ _ => []
  | _, combine op left right => op.coerced s.heap left right
  | _, apply op v => op.coerced v
  | _, tokenId args => args.head?.toList
  | _, _ => []

def SomeCut (values : List Value) : Prop := ∃ v ∈ values, v.isCut = true

theorem not_someCut_nil : ¬SomeCut [] := by
  rintro ⟨_, hv, _⟩
  cases hv

theorem someCut_singleton {v : Value} : SomeCut [v] ↔ v.isCut = true := by
  simp [SomeCut]

theorem someCut_pair {v w : Value} : SomeCut [v, w] ↔ v.isCut = true ∨ w.isCut = true := by
  simp [SomeCut]

theorem someCut_append {vs ws : List Value} : SomeCut (vs ++ ws) ↔ SomeCut vs ∨ SomeCut ws := by
  simp [SomeCut, or_and_right, exists_or]

/-! ## Locations -/

namespace Run

variable {s t : State}

theorem someCut_indexKeys {object key : Value} :
    SomeCut (Location.member object key).indexKeys ↔ cutsKey object key = true := by
  cases object with
  | array handle => exact someCut_singleton
  | _ => exact iff_of_false not_someCut_nil Bool.false_ne_true

theorem crashesIff_readLocation (location : Location) (span : Span) (s : State) :
    CrashesIff (readLocation location span) s (SomeCut location.indexKeys) := by
  cases location with
  | name name =>
    have hcalm : Calm (readName name span) := by
      refine .bind (.of_ok fun s => ⟨_, _, rfl⟩) fun value => ?_
      cases value with
      | some v => exact .pure v
      | none => exact .fail _
    exact (CrashesIff.of_calm hcalm).iff (iff_of_false id not_someCut_nil)
  | member object key =>
    exact (crashesIff_getMember object key span s).iff someCut_indexKeys.symm

/-- Writing crashes if an index is cut, before anything is written. -/
theorem crashesIff_writeLocation (location : Location) (value : Value) (span : Span) (s : State) :
    CrashesIff (writeLocation location value span) s (SomeCut location.indexKeys) := by
  cases location with
  | name name =>
    have hcalm : Calm (writeLocation (.name name) value span) := by
      refine .bind (.of_ok fun s => ⟨_, _, rfl⟩) fun isLocal => ?_
      split
      · exact .pure ()
      · refine .bind (.of_ok fun s => ⟨_, _, rfl⟩) fun isGlobal => ?_
        split
        · exact .fail _
        · exact .fail _
    exact (CrashesIff.of_calm hcalm).iff (iff_of_false id not_someCut_nil)
  | member object key =>
    exact (crashesIff_setMember object key value span s).iff someCut_indexKeys.symm

/-- A step reads its key, and what is there if there is anything. -/
theorem crashesIff_stepLocation (op : UpdateOp) (location : Location) (span : Span) (s : State) :
    CrashesIff (stepLocation op location span) s
      (SomeCut ((Operation.step op location span).coerced s)) := by
  have hread := crashesIff_readLocation location span s
  cases hr : readLocation location span s with
  -- Nothing but the key has been coerced when the read fails.
  | error halt t =>
    have hcoerced : (Operation.step op location span).coerced s = location.indexKeys := by
      rw [Operation.coerced, hr, List.append_nil]
    rw [hcoerced]
    exact hread.bind fun v u hv => by cases hr.symm.trans hv
  | ok v t =>
    -- A read that succeeded coerced the key safely, so the write at the end will too.
    have hkeys : ¬SomeCut location.indexKeys := by
      intro hcut
      obtain ⟨u, hu⟩ := hread.crashes hcut
      cases hr.symm.trans hu
    have hcoerced : SomeCut ((Operation.step op location span).coerced s) ↔ v.isCut = true := by
      rw [Operation.coerced, hr, someCut_append, or_iff_right hkeys, someCut_singleton]
    refine CrashesIff.iff ?_ hcoerced.symm
    have hnumber : CrashesIff (orCrash (stepNumber v)) t (v.isCut = true) := by
      rw [stepNumber_eq]
      exact .orCrash (.toNumber v)
    refine .bind_ok hr (hnumber.bind fun old u _ => ?_)
    have hcharge : Calm (chargeStep old) := by
      cases old with
      | some n => exact .charge _
      | none => exact .pure ()
    refine CrashesIff.bind (.of_calm hcharge) fun _ w _ => ?_
    have hwrite := crashesIff_writeLocation location (.ofNumber? (old.map (step op))) span w
    exact (hwrite.iff (iff_of_false hkeys id)).bind fun _ _ _ => .of_calm (.pure _)

end Run

/-! ## Operators -/

namespace Value

variable {heap : Heap} {left right : Value}

/-- Arrays and objects are compared by their text. -/
theorem asScalar_of_isContainer {v : Value} (h : v.isContainer = true) :
    v.asScalar heap = .string (heap.display v) :=
  if_pos h

theorem asScalar_of_not_isContainer {v : Value} (h : v.isContainer = false) :
    v.asScalar heap = v :=
  if_neg (by rw [h]; exact Bool.false_ne_true)

/-- What is compared is no array or object any more. -/
theorem isContainer_asScalar (heap : Heap) (v : Value) : (v.asScalar heap).isContainer = false := by
  unfold asScalar
  split
  · rfl
  · rename_i h
    exact Bool.eq_false_iff.mpr h

/-- Where one of two values is a scalar, both are compared as scalars. -/
theorem looseEquals_eq_asScalar (h : (left.isContainer && right.isContainer) = false) :
    looseEquals heap left right = looseEquals heap (left.asScalar heap) (right.asScalar heap) := by
  have hone : ∀ {left right : Value}, left.isContainer = true → right.isContainer = false →
      looseEquals heap left right = looseEquals heap (left.asScalar heap) (right.asScalar heap) := by
    intro left right hleft hright
    rw [asScalar_of_isContainer hleft, asScalar_of_not_isContainer hright]
    unfold looseEquals
    rw [hleft, hright]
    rfl
  cases hleft : left.isContainer with
  | true =>
    rw [hleft, Bool.true_and] at h
    exact hone hleft h
  | false =>
    cases hright : right.isContainer with
    | true => rw [looseEquals_comm, hone hright hleft, looseEquals_comm]
    | false => rw [asScalar_of_not_isContainer hleft, asScalar_of_not_isContainer hright]

/-- Two scalars are read as numbers only if they are of different kinds. -/
theorem cutIff_looseEquals_scalars (heap : Heap) (hleft : left.isContainer = false)
    (hright : right.isContainer = false) :
    CutIff (looseEquals heap left right) (SomeCut
      (if left.isPlain && right.isPlain && left.kind != right.kind then [left, right] else [])) := by
  have hok : ∀ {answer}, (left.isPlain && right.isPlain && left.kind != right.kind) = false →
      looseEquals heap left right = .ok answer → CutIff (looseEquals heap left right) (SomeCut
        (if left.isPlain && right.isPlain && left.kind != right.kind then [left, right] else [])) := by
    intro answer hif hanswer
    rw [hif, if_neg Bool.false_ne_true]
    exact .of_ok hanswer not_someCut_nil
  -- null and undefined are compared without numbers
  by_cases habsent : (left.isAbsent || right.isAbsent) = true
  · refine hok ?_ (looseEquals_of_isAbsent habsent)
    cases left <;> cases right <;> first | rfl | cases habsent
  · rw [Bool.not_eq_true] at habsent
    -- what is left are plain values: the same kind is compared strictly, others by number
    rcases left.cases_kind with h | hnan | h | hplain
    · rw [h, Bool.true_or] at habsent
      cases habsent
    · refine hok ?_ (looseEquals_of_nan habsent (.inl hnan))
      rw [hnan]
      rfl
    · rw [hleft] at h
      cases h
    · rcases right.cases_kind with h | hnan | h | hplain'
      · rw [h, Bool.or_true] at habsent
        cases habsent
      · refine hok ?_ (looseEquals_of_nan habsent (.inr hnan))
        rw [hnan, hplain]
        rfl
      · rw [hright] at h
        cases h
      · have hloose : looseEquals heap left right =
            if left.kind = right.kind then .ok (strictEquals left right)
            else numberEquals left right := looseEquals_of_isPlain hplain hplain'
        by_cases hkind : left.kind = right.kind
        · rw [if_pos hkind] at hloose
          refine hok ?_ hloose
          rw [hkind, bne_self_eq_false, Bool.and_false]
        · rw [if_neg hkind] at hloose
          rw [hloose, hplain, hplain', Bool.and_self, Bool.true_and, if_pos (bne_iff_ne.mpr hkind)]
          refine CutIff.iff (.bind (.toNumbers left right) fun numbers => ?_) someCut_pair.symm
          cases numbers with
          | none => exact ⟨_, rfl⟩
          | some numbers => exact ⟨_, rfl⟩

/-- Loose equality reads both sides as numbers only if they are plain and of different kinds. -/
theorem cutIff_looseEquals (heap : Heap) (left right : Value) :
    CutIff (looseEquals heap left right) (SomeCut (equated heap left right)) := by
  unfold equated
  cases hboth : left.isContainer && right.isContainer with
  | true =>
    obtain ⟨hleft, hright⟩ := Bool.and_eq_true_iff.mp hboth
    exact .of_ok (looseEquals_of_isContainer hleft hright) not_someCut_nil
  | false =>
    rw [looseEquals_eq_asScalar hboth]
    exact cutIff_looseEquals_scalars heap (isContainer_asScalar heap left)
      (isContainer_asScalar heap right)

/-- Unless both are texts the left side is read as a number, and the right one if that is a number. -/
theorem ordered_of_not_strings (h : ∀ a b, left = string a → right = string b → False) :
    ordered left right = left :: if left.toNumber?.isSome then [right] else [] := by
  unfold ordered
  split
  · exact (h _ _ rfl rfl).elim
  · rfl

/-- An order comparison crashes on what it reads as numbers. -/
theorem cutIff_order (left right : Value) :
    CutIff (order left right) (SomeCut (ordered left right)) := by
  unfold order
  split
  · exact .of_ok rfl not_someCut_nil
  · rename_i hnot
    rw [ordered_of_not_strings hnot]
    cases hleft : left.isCut with
    | true =>
      have hcut : SomeCut (left :: if left.toNumber?.isSome then [right] else []) :=
        ⟨left, List.mem_cons_self, hleft⟩
      refine ⟨fun _ => ?_, fun h => absurd hcut h⟩
      rw [toNumber_of_isCut hleft]
      rfl
    | false =>
      rw [toNumber_of_not_isCut hleft]
      cases left.toNumber? with
      -- The right side is not looked at when the left one is no number.
      | none => exact .of_ok rfl (mt someCut_singleton.mp (ne_true_of_eq_false hleft))
      | some a =>
        have hright : SomeCut [left, right] ↔ right.isCut = true := by
          rw [someCut_pair, or_iff_right (ne_true_of_eq_false hleft)]
        have hread : CutIff (right.toNumber >>= fun b => Except.ok (b.map a.compare))
            (right.isCut = true) :=
          .bind (.toNumber right) fun _ => ⟨_, rfl⟩
        exact hread.iff hright.symm

/-- A comparison crashes just if something that it reads as a number is cut. -/
theorem cutIff_satisfies (heap : Heap) (op : Comparison) (left right : Value) :
    CutIff (satisfies heap op left right) (SomeCut (compared heap op left right)) := by
  cases op with
  | eq => exact cutIff_looseEquals heap left right
  | ne => exact (cutIff_looseEquals heap left right).map _
  | strictEq | strictNe => exact .of_ok rfl not_someCut_nil
  | lt | gt | le | ge => exact (cutIff_order left right).map _

end Value

namespace Run

variable {s : State}

theorem Calm.forM_charge (prices : List Nat) : Calm (forM prices Run.charge) := by
  induction prices with
  | nil => exact .pure ()
  | cons price rest ih => exact .bind (.charge price) fun _ => ih

/-- Computing with two numbers, whatever is computed, crashes only as they are read. -/
theorem crashesIff_numbers (left right : Value) {rest : Option (Decimal × Decimal) → Run Value}
    (hrest : ∀ numbers, Calm (rest numbers)) :
    CrashesIff (orCrash (left.toNumbers right) >>= rest) s (SomeCut [left, right]) :=
  CrashesIff.iff (.bind (.orCrash (.toNumbers left right)) fun numbers _ _ => .of_calm (hrest numbers))
    someCut_pair.symm

/-- An operator on numbers reads both operands. -/
theorem crashesIff_numeric (price : Decimal → Decimal → Nat)
    (f : Decimal → Decimal → Option Decimal) (left right : Value) (s : State) :
    CrashesIff (numeric price f left right) s (SomeCut [left, right]) := by
  refine crashesIff_numbers left right fun numbers => ?_
  cases numbers with
  | none => exact .pure _
  | some numbers => exact .bind (.charge _) fun _ => .pure _

theorem crashesIff_exponentiate (left right : Value) (s : State) :
    CrashesIff (exponentiate left right) s (SomeCut [left, right]) := by
  refine crashesIff_numbers left right fun numbers => ?_
  cases numbers with
  | none => exact .pure _
  | some numbers =>
    dsimp only
    rw [Decimal.power_eq]
    exact .bind (.bind (.forM_charge _) fun _ => .pure _) fun _ => .pure _

/-- Joining texts reads no numbers. -/
theorem calm_concat (maxLength : Nat) (left right : Value) : Calm (concat maxLength left right) := by
  refine .bind (.of_ok fun s => ⟨_, _, rfl⟩) fun l => .bind (.of_ok fun s => ⟨_, _, rfl⟩) fun r => ?_
  dsimp only
  split
  · exact .fail _
  · exact .bind (.charge _) fun _ => .pure _

/-- An operator on bits reads both operands. -/
theorem crashesIff_bitwise (maxLength : Nat) {op : ArithOp} (hop : op.isBitwise = true)
    (left right : Value) (s : State) :
    CrashesIff (arith maxLength op left right) s (SomeCut [left, right]) := by
  refine CrashesIff.iff ?_ someCut_pair.symm
  by_cases hcut : left.isCut = true ∨ right.isCut = true
  · rw [bitwise_of_isCut maxLength hcut hop]
    exact .of_crashed rfl hcut
  · obtain ⟨hleft, hright⟩ := not_or.mp hcut
    obtain ⟨r, _, hr⟩ := exists_bitwiseResult maxLength (Bool.eq_false_iff.mpr hleft)
      (Bool.eq_false_iff.mpr hright) hop
    rw [hr]
    exact .of_ok rfl hcut

/-- Addition reads numbers if neither side is a text, an array or an object. -/
theorem crashesIff_add (maxLength : Nat) (left right : Value) (s : State) :
    CrashesIff (add maxLength left right) s
      (SomeCut ((BinaryOp.arith .add).coerced s.heap left right)) := by
  unfold add BinaryOp.coerced
  dsimp only
  cases hobject : isObject left || isObject right with
  | true => exact .of_ok rfl not_someCut_nil
  | false =>
    cases htextual : isTextual left || isTextual right with
    | true =>
      rw [Bool.false_or, htextual]
      exact (CrashesIff.of_calm (calm_concat maxLength left right)).iff
        (iff_of_false id not_someCut_nil)
    | false =>
      rw [Bool.false_or, htextual]
      exact crashesIff_numeric _ _ left right s

/-- A binary operator crashes on what it reads as numbers. -/
theorem crashesIff_binary (maxLength : Nat) (op : BinaryOp) (left right : Value) (s : State) :
    CrashesIff (binary maxLength op left right) s (SomeCut (op.coerced s.heap left right)) := by
  cases op with
  | compare op =>
    have hread : comparison op left right s = .ok (Value.satisfies s.heap op left right) s := rfl
    have hanswer : CrashesIff (satisfies op left right) s
        (SomeCut (Value.compared s.heap op left right)) :=
      .bind_ok hread (.orCrash (Value.cutIff_satisfies s.heap op left right))
    exact hanswer.bind fun _ _ _ => .of_calm (.pure _)
  | arith op =>
    by_cases hop : op.isBitwise = true
    · have hcoerced : (BinaryOp.arith op).coerced s.heap left right = [left, right] := by
        cases op <;> first | rfl | cases hop
      rw [hcoerced]
      exact crashesIff_bitwise maxLength hop left right s
    · cases op with
      | add => exact crashesIff_add maxLength left right s
      | sub | mul | div | rem => exact crashesIff_numeric _ _ left right s
      | exp => exact crashesIff_exponentiate left right s
      | bitAnd | bitOr | bitXor | shl | shr | ushr => exact absurd rfl hop

/-- In front of a value `+`, `-` and `~` read a number, the other operators none. -/
theorem crashesIff_unary (op : UnaryOp) (v : Value) (s : State) :
    CrashesIff (unary op v) s (SomeCut (op.coerced v)) := by
  refine .orCrash ?_
  cases op with
  | plus | minus => exact CutIff.iff (.bind (.toNumber v) fun _ => ⟨_, rfl⟩) someCut_singleton.symm
  | bitNot =>
    have hword : CutIff v.toInt32 (v.isCut = true) := .bind (.toNumber v) fun _ => ⟨_, rfl⟩
    exact CutIff.iff (.bind hword fun _ => ⟨_, rfl⟩) someCut_singleton.symm
  | not | typeof | void => exact .of_ok rfl not_someCut_nil

end Run

/-! ## Operations -/

/-- An operation crashes just if a value that it reads as a number is cut. -/
theorem Operation.crashesIff (env : Env) {α : Type} (op : Operation α) (s : State) :
    Run.CrashesIff (op.perform env) s (SomeCut (op.coerced s)) := by
  have hcalm : ∀ {x : Run α}, Run.Calm x → Run.CrashesIff x s (SomeCut []) := fun hx =>
    (Run.CrashesIff.of_calm hx).iff (iff_of_false id not_someCut_nil)
  -- whatever collaborators answer, it is a result or an error
  have hask : ∀ outcome : Except Error Datum, Run.Calm (Run.ofOutcome outcome) := by
    intro outcome
    cases outcome with
    | ok d => exact .pure d
    | error e => exact .fail e
  cases op with
  | enter => exact hcalm .enter
  | lookup name | isLocal name | define name value | bindGlobal name value | display v | give v =>
    exact hcalm (.of_ok fun _ => ⟨_, _, rfl⟩)
  | read location span => exact Run.crashesIff_readLocation location span s
  | write location value span => exact Run.crashesIff_writeLocation location value span s
  | step op location span => exact Run.crashesIff_stepLocation op location span s
  | combine op left right => exact Run.crashesIff_binary env.maxStringLength op left right s
  | apply op v => exact Run.crashesIff_unary op v s
  | makeArray elements | makeObject entries | takeIn d =>
    exact hcalm (.bind (.charge _) fun _ => .of_ok fun _ => ⟨_, _, rfl⟩)
  | callMethod receiver method args span =>
    refine hcalm ?_
    unfold Operation.perform Run.callMethod
    dsimp only
    split
    · exact .bind (.charge _) fun _ => .of_ok fun _ => ⟨_, _, rfl⟩
    · exact .fail _
  -- the one argument that is read as a number is the first
  | tokenId args =>
    refine .orCrash ?_
    cases args with
    | nil => exact .of_ok rfl not_someCut_nil
    | cons v rest => exact CutIff.iff (.toNumber v) someCut_singleton.symm
  | askToken id args =>
    refine hcalm ?_
    unfold Operation.perform Run.askToken
    dsimp only
    split
    · exact hask _
    · exact .fail _
  | askContract address signature returnType args =>
    refine hcalm ?_
    unfold Operation.perform Run.askContract
    dsimp only
    split
    · exact hask _
    · exact .fail _
  | copyOut v span =>
    refine hcalm (.bind (.of_ok fun _ => ⟨_, _, rfl⟩) fun exported => ?_)
    cases exported with
    | ok d => exact .pure d
    | error fault => exact .fail _

/-! ## Runs -/

namespace Steps

variable {env : Env} {α : Type}

/-- A computation in steps crashes only if one of its operations does. -/
theorem exists_event_of_crashed {x : Steps α} {s t : State} {c : Crash}
    (h : x.run env s = .error (.crashed c) t) :
    ∃ event ∈ x.events env s, ∃ u, event.result = .error (.crashed c) u := by
  induction x generalizing s t with
  | done a | fail error | unfinished => cases h
  | perform op => exact ⟨_, List.mem_cons_self, t, h⟩
  -- A crash lies in the part that did not succeed, whose events are among those of the whole.
  | bind x f ihx ihf =>
    cases hr : x.run env s with
    | ok a u =>
      obtain ⟨event, hevent, hcrash⟩ := ihf a ((Run.bind_of_ok hr).symm.trans h)
      refine ⟨event, ?_, hcrash⟩
      rw [show events env (bind x f) s = _ from events_bind_ok hr]
      exact List.mem_append_right _ hevent
    | error halt u =>
      cases (Run.bind_of_error hr).symm.trans h
      obtain ⟨event, hevent, hcrash⟩ := ihx hr
      refine ⟨event, ?_, hcrash⟩
      rw [show events env (bind x f) s = _ from events_bind_error hr]
      exact hevent
  | inFrame x ih =>
    cases hr : x.run env { s with frames := s.frames.push } with
    | ok a u =>
      rw [run_inFrame, Run.inFrame, hr] at h
      cases h
    | error halt u =>
      rw [run_inFrame, Run.inFrame, hr] at h
      cases h
      exact ih hr

/-- Where an operation halts, so does the computation. -/
theorem exists_run_eq_error {x : Steps α} {s u : State} {event : Event} {halt : Halt}
    (hevent : event ∈ x.events env s) (h : event.result = .error halt u) :
    ∃ t, x.run env s = .error halt t := by
  induction x generalizing s with
  | done a | fail error | unfinished => cases hevent
  | perform op =>
    rcases List.mem_singleton.mp hevent with rfl
    exact ⟨u, h⟩
  | bind x f ihx ihf =>
    cases hr : x.run env s with
    | ok a t =>
      rw [show events env (bind x f) s = _ from events_bind_ok hr] at hevent
      rcases List.mem_append.mp hevent with hfirst | hnext
      -- All operations of a part that succeeded succeeded themselves.
      · obtain ⟨b, v, hok⟩ := succeeded_of_run_ok hr event hfirst
        cases hok.symm.trans h
      · obtain ⟨w, hw⟩ := ihf a hnext
        exact ⟨w, (Run.bind_of_ok hr).trans hw⟩
    | error halt' t =>
      rw [show events env (bind x f) s = _ from events_bind_error hr] at hevent
      obtain ⟨w, hw⟩ := ihx hevent
      exact ⟨w, Run.bind_of_error hw⟩
  | inFrame x ih =>
    obtain ⟨w, hw⟩ := ih hevent
    refine ⟨{ w with frames := w.frames.pop }, ?_⟩
    rw [run_inFrame, Run.inFrame, hw]

end Steps

/-- The values that an operation of a run read as numbers. -/
def Event.coerced (event : Event) : List Value := event.operation.coerced event.before

namespace Program

variable (program : Program) (context : RunContext) (limits : Limits) (collaborators : Collaborators)

/-- A run crashes just if a value is cut that one of its operations reads as a number. -/
theorem run_eq_crashed_iff (c : Crash) :
    (program.run context limits collaborators).result = .error (.crashed c) ↔
      c = .insideCharacter ∧
        ∃ event ∈ program.events context limits collaborators, SomeCut event.coerced := by
  have hsteps : ∀ halt, (program.run context limits collaborators).result = .error halt ↔
      ∃ t, (program.steps context limits collaborators).run (program.env limits collaborators)
        limits.start = .error halt t := by
    intro halt
    rw [program.run_eq_steps]
    cases (program.steps context limits collaborators).run (program.env limits collaborators)
        limits.start with
    | ok d t => exact iff_of_false (fun h => by cases h) fun ⟨_, h⟩ => by cases h
    | error halt' t =>
      constructor
      · intro h
        cases h
        exact ⟨t, rfl⟩
      · rintro ⟨_, ⟨⟩⟩
        rfl
  rw [hsteps]
  constructor
  -- A crash of the run is a crash of one operation, and each operation says when it crashes.
  · rintro ⟨t, ht⟩
    obtain ⟨event, hevent, u, hu⟩ := Steps.exists_event_of_crashed ht
    have hcrashes := event.operation.crashesIff (program.env limits collaborators) event.before
    rw [Steps.result_of_mem_events hevent] at hu
    exact ⟨hcrashes.eq_insideCharacter hu, event, hevent, hcrashes.only hu⟩
  · rintro ⟨rfl, event, hevent, hcut⟩
    obtain ⟨u, hu⟩ :=
      (event.operation.crashesIff (program.env limits collaborators) event.before).crashes hcut
    exact Steps.exists_run_eq_error hevent ((Steps.result_of_mem_events hevent).trans hu)

/-- A run ends, and in the course of it enters at most one thing more than it has units; giving it more
levels changes nothing about it. It ends with data or an error, unless one of its operations reads a cut
text as a number: then it crashes. -/
theorem run_ends (hbudget : limits.stepBudget < maxUnits) :
    (((∃ d, (program.run context limits collaborators).result = .ok d) ∨
        ∃ e, (program.run context limits collaborators).result = .error (.failed e)) ↔
      ∀ event ∈ program.events context limits collaborators, ∀ v ∈ event.coerced, v.isCut = false) ∧
      ((∃ event ∈ program.events context limits collaborators, ∃ v ∈ event.coerced, v.isCut = true) →
        (program.run context limits collaborators).result = .error (.crashed .insideCharacter)) ∧
      (program.run context limits collaborators).entries ≤ limits.stepBudget + 1 ∧
      ∀ levels, limits.stepBudget < levels →
        program.runWithin levels context limits collaborators =
          program.run context limits collaborators := by
  have hends := program.runWithin_ends context collaborators hbudget
    (Nat.lt_succ_self limits.stepBudget)
  have hcrash := program.run_eq_crashed_iff context limits collaborators
  refine ⟨?_, fun hcut => (hcrash _).mpr ⟨rfl, hcut⟩, hends.2, fun levels hlevels =>
    program.runWithin_eq_run context collaborators hbudget hlevels⟩
  -- The first part asks for no cut value at all, the others for one.
  have hnone : (∀ event ∈ program.events context limits collaborators, ∀ v ∈ event.coerced,
      v.isCut = false) ↔ ¬∃ event ∈ program.events context limits collaborators,
        SomeCut event.coerced := by
    simp [SomeCut]
  rw [hnone]
  cases hr : (program.run context limits collaborators).result with
  | ok d =>
    refine iff_of_true (.inl ⟨d, rfl⟩) fun hcut => ?_
    cases hr.symm.trans ((hcrash _).mpr ⟨rfl, hcut⟩)
  | error halt =>
    cases halt with
    | failed e =>
      refine iff_of_true (.inr ⟨e, rfl⟩) fun hcut => ?_
      cases hr.symm.trans ((hcrash _).mpr ⟨rfl, hcut⟩)
    | crashed c =>
      refine iff_of_false ?_ fun hnot => hnot ((hcrash c).mp hr).2
      rintro (⟨_, h⟩ | ⟨_, h⟩) <;> cases h
    -- One level more than the budget is never used up.
    | unfinished => exact absurd hr hends.1

end Program

/-- A function that never returns. -/
def endlessLoop : Program :=
  ⟨[.function ⟨"f", [], [.forLoop none none none (.empty {}) {}], {}, {}⟩], {}⟩

/-- The bound is reached: the call, its body, the loop and one round of it use up three units and ask
for a fourth. -/
theorem endlessLoop_run_ends :
    (endlessLoop.run {} ⟨3, 10⟩ {}).entries = 4 ∧
      (endlessLoop.run {} ⟨3, 10⟩ {}).entries ≤ 3 + 1 ∧
      ∀ levels, 3 < levels →
        endlessLoop.runWithin levels {} ⟨3, 10⟩ {} = endlessLoop.run {} ⟨3, 10⟩ {} := by
  have hends := endlessLoop.run_ends {} ⟨3, 10⟩ {} (by decide)
  exact ⟨rfl, hends.2.2⟩

/-- A function that gives its argument as a number. -/
def plusArgument : Program :=
  ⟨[.function ⟨"f", [⟨"x", none⟩],
    [.returnValue (some (.unary .plus (.place (.ident "x" {})) {})) {}], {}, {}⟩], {}⟩

/-- There is enough to pay with, and yet neither a value nor an error. -/
theorem plusArgument_crashes :
    (plusArgument.run { args := [.string "0é"] } ⟨100, 100⟩ {}).result =
      .error (.crashed .insideCharacter) := by
  have hcut : (plusArgument.events { args := [.string "0é"] } ⟨100, 100⟩ {}).any
      (fun event => event.coerced.any Value.isCut) = true := by
    decide +kernel
  obtain ⟨event, hevent, hcut⟩ := List.any_eq_true.mp hcut
  exact (plusArgument.run_eq_crashed_iff ..).mpr ⟨rfl, event, hevent, List.any_eq_true.mp hcut⟩

end MeteredScript
