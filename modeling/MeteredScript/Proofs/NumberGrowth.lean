import MeteredScript.Proofs.Handles
import MeteredScript.Proofs.Spending

namespace MeteredScript

/-! # Numbers grow only as they are paid for

An operator on numbers charges a bill that depends on the numbers alone, and its result has at most
one word more than the bill has units (`ArithOp.saturate_words_bill_le`); a step costs the words of the
number it starts from. The one word is covered by the unit that entering an expression costs. Main
statement: no number that a run computes has more words than the run has used units at that moment.
-/

/-! ## Bills -/

/-- Whether an operator computes with numbers of any size, and not with words. -/
def ArithOp.isNumeric : ArithOp → Bool
  | .add | .sub | .mul | .div | .rem | .exp => true
  | .bitAnd | .bitOr | .bitXor | .shl | .shr | .ushr => false

/-- The charges of an operator on two numbers, in order, and its result. -/
def ArithOp.bill (op : ArithOp) (a b : Decimal) : List Nat × Option Decimal :=
  match op with
  | .add => ([Run.linearPrice a b], some (a.add b))
  | .sub => ([Run.linearPrice a b], some (a.sub b))
  | .mul => ([a.wordProduct b], some (a.mul b))
  | .div => ([a.wordProduct b], a.div? b)
  | .rem => ([a.wordProduct b], a.rem? b)
  | .exp => Decimal.powerBill a b
  | _ => ([], none)

/-- A result has at most one word more than the bill has units. -/
theorem ArithOp.saturate_words_bill_le {op : ArithOp} {a b n : Decimal}
    (h : (op.bill a b).2 = some n) :
    saturate n.words ≤ total (op.bill a b).1 + 1 := by
  have hcut : saturate n.words ≤ n.words := Nat.min_le_left _ _
  cases op with
  | add =>
    cases h
    exact Nat.le_trans hcut (Decimal.words_add_le a b)
  | sub =>
    cases h
    exact Nat.le_trans hcut (Decimal.words_sub_le a b)
  | mul =>
    cases h
    exact Decimal.saturate_words_mul_le a b
  | div => exact Decimal.saturate_words_div_le h
  | rem => exact Decimal.saturate_words_rem_le h
  | exp => exact Decimal.saturate_words_power_le h
  | bitAnd | bitOr | bitXor | shl | shr | ushr => cases h

namespace Run

theorem forM_charge_singleton (units : Nat) (v : Value) :
    (forM [units] charge >>= fun _ => pure v : Run Value) = charge units >>= fun _ => pure v := by
  simp only [List.forM_cons, List.forM_nil, bind_assoc, pure_bind]

/-- An operator on two numbers charges its bill and gives its result. -/
theorem arith_number (maxLength : Nat) {op : ArithOp} (hop : op.isNumeric = true) (a b : Decimal) :
    arith maxLength op (.number a) (.number b) =
      forM (op.bill a b).1 charge >>= fun _ => pure (.ofNumber? (op.bill a b).2) := by
  cases op with
  | add | sub | mul | div | rem => exact (forM_charge_singleton _ _).symm
  | exp =>
    change Decimal.power charge a b >>= (fun result => pure (Value.ofNumber? result)) = _
    rw [Decimal.power_eq, bind_assoc]
    simp only [pure_bind]
    rfl
  | bitAnd | bitOr | bitXor | shl | shr | ushr => cases hop

theorem leads_forM_charge (prices : List Nat) (s : State) :
    Leads (forM prices charge) s (fun _ t => s.Paid (total prices) t) fun _ => True := by
  induction prices generalizing s with
  | nil => exact .pure (.refl s)
  | cons price rest ih =>
    have hfirst : Leads (charge price) s (fun _ t => s.Paid price t) fun _ => True :=
      (Leads.charge price).mono (fun _ _ ht => ht) fun _ _ => trivial
    rw [List.forM_cons]
    exact hfirst.bind fun _ t ht => (ih t).mono (fun _ _ hu => ht.trans hu) fun _ _ => trivial

/-- A number that was computed, and what was paid for it between two states. -/
def PaidFor (s t : State) (n : Decimal) : Prop :=
  ∃ units, saturate n.words ≤ units + 1 ∧ saturate (s.meter.used + units) ≤ t.meter.used

/-- What an operator gives, if it is a number, is paid for. -/
def Pays (x : Run Value) (s : State) : Prop :=
  Leads x s (fun v t => ∀ n, v = .number n → PaidFor s t n) fun _ => True

theorem Pays.nan (s : State) : Pays (pure .nan) s := by
  refine .pure fun n hn => ?_
  cases hn

theorem Pays.bill (op : ArithOp) (a b : Decimal) (s : State) :
    Pays (forM (op.bill a b).1 charge >>= fun _ => pure (.ofNumber? (op.bill a b).2)) s := by
  refine (leads_forM_charge _ s).bind fun _ t ht => .pure fun n hn => ?_
  cases hresult : (op.bill a b).2 with
  | none =>
    rw [hresult] at hn
    cases hn
  | some m =>
    rw [hresult] at hn
    cases hn
    exact ⟨_, ArithOp.saturate_words_bill_le hresult, ht.paid⟩

/-- Computing with two values is computing with the numbers that they stand for. -/
theorem Pays.of_numbers (maxLength : Nat) {left right : Value} {s : State} {op : ArithOp}
    (hop : op.isNumeric = true) {rest : Option (Decimal × Decimal) → Run Value}
    (hnumbers : ∀ a b, rest (some (a, b)) = arith maxLength op (.number a) (.number b))
    (hnan : rest none = pure .nan) : Pays (orCrash (left.toNumbers right) >>= rest) s := by
  rcases left.toNumbers right with c | _ | ⟨a, b⟩
  · exact .halt trivial
  · have hrest : orCrash (.ok none) >>= rest = pure .nan := hnan
    rw [hrest]
    exact .nan s
  · have hrest : orCrash (.ok (some (a, b))) >>= rest = arith maxLength op (.number a) (.number b) :=
      hnumbers a b
    rw [hrest, arith_number maxLength hop]
    exact .bill op a b s

/-- A number that an operator gives is paid for. -/
theorem pays_arith (maxLength : Nat) {op : ArithOp} (hop : op.isNumeric = true) (left right : Value)
    (s : State) : Pays (arith maxLength op left right) s := by
  cases op with
  | add =>
    by_cases hobject : (isObject left || isObject right) = true
    · have hadd : arith maxLength .add left right = pure .nan := if_pos hobject
      rw [hadd]
      exact .nan s
    · by_cases htextual : (isTextual left || isTextual right) = true
      · have hadd : arith maxLength .add left right = concat maxLength left right :=
          (if_neg hobject).trans (if_pos htextual)
        -- joined texts are no number
        have htext : Always (fun v => ∃ text, v = .string text) (concat maxLength left right) := by
          refine .bind fun l => .bind fun r => ?_
          dsimp only
          split
          · exact .fail _
          · exact .bind fun _ => .pure ⟨_, rfl⟩
        rw [hadd]
        refine (htext s).mono (fun v t hv n hn => ?_) fun _ _ => trivial
        obtain ⟨text, rfl⟩ := hv
        cases hn
      · have hadd : arith maxLength .add left right =
            numeric linearPrice (fun a b => some (a.add b)) left right :=
          (if_neg hobject).trans (if_neg htextual)
        rw [hadd]
        exact .of_numbers maxLength (show ArithOp.isNumeric .add = true from rfl) (fun _ _ => rfl) rfl
  | sub => exact .of_numbers maxLength (show ArithOp.isNumeric .sub = true from rfl) (fun _ _ => rfl) rfl
  | mul => exact .of_numbers maxLength (show ArithOp.isNumeric .mul = true from rfl) (fun _ _ => rfl) rfl
  | div => exact .of_numbers maxLength (show ArithOp.isNumeric .div = true from rfl) (fun _ _ => rfl) rfl
  | rem => exact .of_numbers maxLength (show ArithOp.isNumeric .rem = true from rfl) (fun _ _ => rfl) rfl
  | exp => exact .of_numbers maxLength (show ArithOp.isNumeric .exp = true from rfl) (fun _ _ => rfl) rfl
  | bitAnd | bitOr | bitXor | shl | shr | ushr => cases hop

/-- A number that a step gives is paid for. -/
theorem pays_stepLocation (op : UpdateOp) (location : Location) (span : Span) (s : State) :
    Leads (stepLocation op location span) s
      (fun stepped t => ∀ n, stepped.2 = .number n → PaidFor s t n) fun _ => True := by
  have hread : Leads (readLocation location span) s (fun _ t => s.Paid 0 t) fun _ => True :=
    (Quiet.readLocation location span s).mono (fun _ _ ht => ht) fun _ _ => trivial
  refine hread.bind fun v t ht => ?_
  rcases stepNumber v with c | old
  · exact .halt trivial
  refine .congr (bind_of_ok rfl) ?_
  cases old with
  | none =>
    -- without a number there is nothing to pay for
    have hnan : Always (fun stepped : Option Decimal × Value => stepped.2 = .nan) (do
        chargeStep none
        writeLocation location (.ofNumber? (Option.map (step op) none)) span
        return (none, .ofNumber? (Option.map (step op) none))) :=
      .bind fun _ => .bind fun _ => .pure rfl
    refine (hnan t).mono (fun stepped u hstepped n hn => ?_) fun _ _ => trivial
    rw [hstepped] at hn
    cases hn
  | some m =>
    have hcharge : Leads (chargeStep (some m)) t (fun _ u => t.Paid m.words u) fun _ => True :=
      (Leads.charge m.words).mono (fun _ _ hu => hu) fun _ _ => trivial
    refine hcharge.bind fun _ u hu => ?_
    have hwrite : Leads (writeLocation location (.ofNumber? (some (step op m))) span) u
        (fun _ w => saturate u.meter.used ≤ w.meter.used) fun _ => True := by
      refine Leads.mono (makes_writeLocation location _ span u) (fun _ w hw => ?_) fun _ _ => trivial
      obtain ⟨change, _, hdone⟩ := hw
      have hpaid := hdone.paid
      unfold saturate at hpaid ⊢
      omega
    refine hwrite.bind fun _ w hw => .pure fun n hn => ?_
    cases hn
    refine ⟨m.words, ?_, ?_⟩
    · have hstep := Decimal.words_step_le op m
      exact Nat.le_trans (Nat.min_le_left _ _) hstep
    · have hpaid := (ht.trans hu).paid
      unfold saturate at hpaid hw ⊢
      omega

end Run

/-! ## Numbers that a run computes -/

def Value.number? : Value → Option Decimal
  | .number n => some n
  | _ => none

def Operation.computed : {α : Type} → Operation α → α → Option Decimal
  | _, combine (.arith op) _ _, v => if op.isNumeric then v.number? else none
  | _, step _ _ _, stepped => stepped.2.number?
  | _, _, _ => none

/-- The number that an operation computed. -/
def Event.computed (event : Event) : Option Decimal :=
  match event.result with
  | .ok a _ => event.operation.computed a
  | .error _ _ => none

theorem Value.eq_number_of_number? {v : Value} {n : Decimal} (h : v.number? = some n) :
    v = .number n := by
  cases v with
  | number m =>
    cases h
    rfl
  | _ => cases h

/-- A number that an operation computes is paid for. -/
theorem Operation.paidFor_computed {env : Env} {α : Type} {op : Operation α} {s t : State} {a : α}
    (h : op.perform env s = .ok a t) {n : Decimal} (hn : op.computed a = some n) :
    Run.PaidFor s t n ∧ op.isPaid = false := by
  cases op with
  | combine op left right =>
    cases op with
    | compare op => cases hn
    | arith op =>
      have hcomputed : (if op.isNumeric then a.number? else none) = some n := hn
      -- What the other operators give does not count as computed.
      by_cases hop : op.isNumeric = true
      · rw [if_pos hop] at hcomputed
        have hpays := Run.pays_arith env.maxStringLength hop left right s
        exact ⟨hpays.ok h n (Value.eq_number_of_number? hcomputed), rfl⟩
      · rw [if_neg hop] at hcomputed
        cases hcomputed
  | step op location span =>
    have hpays := Run.pays_stepLocation op location span s
    exact ⟨hpays.ok h n (Value.eq_number_of_number? hn), rfl⟩
  | _ => cases hn

theorem Event.paidFor_computed {env : Env} {event : Event}
    (hresult : event.result = event.operation.perform env event.before) {n : Decimal}
    (hn : event.computed = some n) :
    Run.PaidFor event.before event.after n ∧ event.Succeeded ∧ event.operation.isPaid = false := by
  cases hr : event.result with
  | error halt t =>
    unfold Event.computed at hn
    rw [hr] at hn
    cases hn
  | ok a t =>
    unfold Event.computed at hn
    rw [hr] at hn
    have hpaid := Operation.paidFor_computed (hresult.symm.trans hr) hn
    have hafter : event.after = t := congrArg Run.final hr
    rw [hafter]
    exact ⟨hpaid.1, ⟨a, t, hr⟩, hpaid.2⟩

/-- Numbers grow only as they are paid for. An operator on two numbers charges its bill, and its
result has at most one word more than the bill has units; a step charges the words of the number, and
adds at most one. Words are counted up to `maxUnits`, as units are. So in a run whose budget the meter
can count, a number that an operator or a step computes has at most as many words as units are used
at that moment, which are at most the budget. -/
theorem numbers_are_paid_for :
    (∀ (maxLength : Nat) (op : ArithOp) (a b : Decimal), op.isNumeric = true →
      Run.arith maxLength op (.number a) (.number b) =
          (forM (op.bill a b).1 Run.charge >>= fun _ => pure (.ofNumber? (op.bill a b).2)) ∧
        ∀ n, (op.bill a b).2 = some n → saturate n.words ≤ total (op.bill a b).1 + 1) ∧
    (∀ (op : UpdateOp) (n : Decimal),
      Run.chargeStep (some n) = Run.charge n.words ∧ (Run.step op n).words ≤ n.words + 1) ∧
    ∀ (program : Program) (context : RunContext) (limits : Limits) (collaborators : Collaborators),
      limits.stepBudget < maxUnits →
      ∀ event ∈ program.events context limits collaborators, ∀ n ∈ event.computed,
        n.words ≤ event.after.meter.used ∧ event.after.meter.used ≤ limits.stepBudget := by
  refine ⟨fun maxLength op a b hop => ?_, fun op n => ?_, ?_⟩
  · exact ⟨Run.arith_number maxLength hop a b, fun n hn => ArithOp.saturate_words_bill_le hn⟩
  · exact ⟨rfl, Decimal.words_step_le op n⟩
  · intro program context limits collaborators hbudget event hevent n hn
    have hresult := Steps.result_of_mem_events hevent
    obtain ⟨⟨units, hwords, hpaid⟩, hok, hop⟩ := Event.paidFor_computed hresult hn
    have hentered := Program.used_pos_of_mem_events hevent hop
    have hbefore := Program.withinBudget_of_mem_events hevent
    have hafter := (Program.withinBudget_of_succeeded hevent hok hbefore).used
    refine ⟨?_, hafter⟩
    -- the meter has not reached the last number it counts to, so nothing was cut off
    unfold saturate at hwords hpaid
    omega

/-- A function that squares a number and steps the result. -/
def squareAndStep : Program :=
  ⟨[.function ⟨"f", [], [
    .declare [⟨"x", some (.literal (.number (.ofInt 99999999999)) {})⟩] {},
    .expression (.assign (.compound .mul) (.ident "x" {}) (.place (.ident "x" {})) {}) {},
    .returnValue (some (.updateBefore .increment {} [] (.ident "x" {}))) {}], {}, {}⟩], {}⟩

/-- The square has three words and costs four units, of which the run has used eleven by then. -/
theorem squareAndStep_numbers_paid_for :
    (squareAndStep.events {} ⟨100, 0⟩ {}).filterMap Event.computed =
        [⟨9999999999800000000001000000000000000000⟩, ⟨9999999999800000000002000000000000000000⟩] ∧
      ∀ event ∈ squareAndStep.events {} ⟨100, 0⟩ {}, ∀ n ∈ event.computed,
        n.words ≤ event.after.meter.used ∧ event.after.meter.used ≤ 100 :=
  ⟨by decide +kernel, numbers_are_paid_for.2.2 squareAndStep {} ⟨100, 0⟩ {} (by decide)⟩

end MeteredScript
