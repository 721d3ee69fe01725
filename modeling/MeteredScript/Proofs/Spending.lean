import MeteredScript.Proofs.Effects

namespace MeteredScript

/-! # The meter along a run

The limit never moves, and an operation that succeeds leaves the meter within it. So before every
operation of a run no more than the budget is used, and after it, unless it fails. The first operation
of a run pays at least a unit, so every later one finds the meter moved. Main statements:
`Program.withinBudget_of_mem_events` and `Program.used_pos_of_mem_events`.
-/

/-! ## Operations as computations -/

variable {α : Type}

/-- A relation that is kept by everything that rules are made of holds for every operation. -/
theorem Operation.related {R : ∀ {α : Type}, Run α → Run α → Prop} (h : Run.Congruence id R)
    (env : Env)
    (hanswer : ∀ e, env.collaborators.MayAnswer e → R (Run.fail e : Run Datum) (Run.fail e))
    (hglobal : ∀ name value, R (Run.defineGlobal name value) (Run.defineGlobal name value))
    (op : Operation α) : R (op.perform env) (op.perform env) := by
  cases op with
  | enter => exact h.enter
  | lookup name => exact h.primitive (.lookup name)
  | isLocal name => exact h.primitive (.isLocal name)
  | define name value => exact h.primitive (.define name value trivial)
  | bindGlobal name value => exact hglobal name value
  | read location span => exact h.readLocation location span
  | write location value span => exact h.writeLocation location value span fun _ _ => trivial
  | step op location span => exact h.stepLocation op location span fun _ _ => trivial
  | combine op left right => exact h.binary (h.concat _) op left right
  | apply op v => exact h.orCrash _
  | display v => exact h.primitive (.display v)
  | makeArray elements => exact h.bind (h.charge _) fun _ => h.primitive (.addArray elements)
  | makeObject entries => exact h.bind (h.charge _) fun _ => h.primitive (.addObject entries)
  | callMethod receiver method args span => exact h.callMethod receiver method args span
  | tokenId args => exact h.orCrash _
  | askToken id args => exact h.askToken hanswer id args
  | askContract address signature returnType args =>
    exact h.askContract hanswer address signature returnType args
  | takeIn d => exact h.importDatum d
  | copyOut v span => exact h.exportDatum v span
  | give v => exact h.pure ()

/-! ## Staying within the limit -/

def Meter.Within (meter : Meter) : Prop := meter.used ≤ meter.limit

namespace Run

/-- A computation that keeps the limit, and stays within it if it succeeds. -/
def Metered {α : Type} (x : Run α) : Prop :=
  ∀ s, Leads x s
    (fun _ t => t.meter.limit = s.meter.limit ∧ (s.meter.Within → t.meter.Within))
    fun t => t.meter.limit = s.meter.limit

namespace Metered

variable {α β : Type} {x : Run α}

/-- What leaves the meter alone stays within the limit. -/
theorem of_meter_eq (hx : ∀ s, (final (x s)).meter = s.meter) : Metered x := by
  intro s
  have hmeter := hx s
  constructor
  · intro a t hok
    rw [hok] at hmeter
    change t.meter = s.meter at hmeter
    rw [hmeter]
    exact ⟨rfl, id⟩
  · intro halt t herror
    rw [herror] at hmeter
    exact congrArg Meter.limit hmeter

theorem bind {f : α → Run β} (hx : Metered x) (hf : ∀ a, Metered (f a)) : Metered (x >>= f) := by
  intro s
  refine (hx s).bind fun a t ht => ?_
  refine (hf a t).mono (fun b u hu => ?_) fun u hu => hu.trans ht.1
  exact ⟨hu.1.trans ht.1, fun hs => hu.2 (ht.2 hs)⟩

/-- A charge that goes through stays within the limit. -/
theorem charge (units : Nat) : Metered (Run.charge units) := by
  intro s
  by_cases hle : saturate (s.meter.used + units) ≤ s.meter.limit
  · exact .of_ok (charge_of_le hle) ⟨rfl, fun _ => hle⟩
  · have hstop := charge_of_lt (Nat.lt_of_not_le hle)
    constructor
    · intro a t hok
      cases hstop.symm.trans hok
    · intro halt t herror
      cases hstop.symm.trans herror
      rfl

theorem memoryStep (hx : IsMemoryStep x) : Metered x := by
  obtain ⟨f, hf⟩ := hx
  refine of_meter_eq fun s => ?_
  rw [hf]
  rfl

end Metered

/-- All rules stay within the limit. -/
theorem congruence_metered : Congruence id fun {_} x _ => Metered x where
  pure := fun _ => .of_meter_eq fun _ => rfl
  bind := Metered.bind
  fail := fun _ _ => .of_meter_eq fun _ => rfl
  crash := fun _ => .of_meter_eq fun _ => rfl
  charge := .charge
  enter := fun s => .congr (show enter s = charge 1 { s with entries := s.entries + 1 } from rfl)
    (Metered.charge 1 { s with entries := s.entries + 1 })
  primitive := fun hx => .memoryStep hx.isMemoryStep

end Run

theorem Operation.metered (env : Env) (op : Operation α) : Run.Metered (op.perform env) :=
  Operation.related Run.congruence_metered env (fun _ _ => .of_meter_eq fun _ => rfl)
    (fun name value => .memoryStep (Run.isMemoryStep_defineGlobal name value)) op

/-! ## The budget of a run -/

/-- A meter with the limit of a run, which no more is used of. -/
structure Meter.WithinBudget (budget : Nat) (meter : Meter) : Prop where
  limit : meter.limit = budget
  used : meter.used ≤ budget

namespace Program

variable {program : Program} {context : RunContext} {limits : Limits}
  {collaborators : Collaborators} {event : Event}

/-- An operation that succeeds stays within the budget. -/
theorem withinBudget_of_succeeded
    (hevent : event ∈ program.events context limits collaborators) (hok : event.Succeeded)
    (hbefore : event.before.meter.WithinBudget limits.stepBudget) :
    event.after.meter.WithinBudget limits.stepBudget := by
  have hresult := Steps.result_of_mem_events hevent
  obtain ⟨a, t, hat⟩ := hok
  have hafter : event.after = t := congrArg Run.final hat
  have hmetered := (event.operation.metered _ event.before).ok (hresult.symm.trans hat)
  -- the limit of the meter is the budget
  have hwithin : event.before.meter.Within := by
    unfold Meter.Within
    rw [hbefore.limit]
    exact hbefore.used
  have hlimit := hmetered.1.trans hbefore.limit
  rw [hafter]
  refine ⟨hlimit, ?_⟩
  have hused := hmetered.2 hwithin
  unfold Meter.Within at hused
  rwa [hlimit] at hused

/-- Before every operation of a run no more than the budget is used. -/
theorem withinBudget_of_mem_events
    (hevent : event ∈ program.events context limits collaborators) :
    event.before.meter.WithinBudget limits.stepBudget := by
  obtain ⟨ending, _, hlinked⟩ := program.linked_events context limits collaborators
  have hstart : limits.start.meter.WithinBudget limits.stepBudget := ⟨rfl, Nat.zero_le _⟩
  refine hlinked.forall_before (P := fun s => s.meter.WithinBudget limits.stepBudget) ?_ ?_ ?_ hstart
    event hevent
  · intro s s' hstore hs
    rw [hstore.meter]
    exact hs
  · intro event hevent hok hbefore
    exact withinBudget_of_succeeded hevent hok hbefore
  · exact Steps.succeeded_of_mem_dropLast _ _

end Program

/-! ## The first operation -/

/-- Whether an operation is paid for whatever it does. -/
def Operation.isPaid : {α : Type} → Operation α → Bool
  | _, enter | _, takeIn _ => true
  | _, _ => false

theorem State.Paid.used_pos {s t : State} {units : Nat} (h : s.Paid units t) (hunits : 1 ≤ units) :
    1 ≤ t.meter.used := by
  have hpaid := h.paid
  have hmax : 1 ≤ maxUnits := by decide
  unfold saturate at hpaid
  omega

/-- A paid operation moves the meter, even if it fails. -/
theorem Operation.used_pos_of_isPaid {env : Env} {op : Operation α} (hop : op.isPaid = true)
    (s : State) : 1 ≤ (Run.final (op.perform env s)).meter.used := by
  have hcharge : ∀ {units : Nat} (t : State), 1 ≤ units →
      Run.Leads (Run.charge units) t (fun _ u => 1 ≤ u.meter.used) fun u => 1 ≤ u.meter.used :=
    fun _ hunits => (Run.Leads.charge _).mono (fun _ _ hu => hu.used_pos hunits)
      fun _ hu => hu.used_pos hunits
  cases op with
  | enter => exact (hcharge { s with entries := s.entries + 1 } (Nat.le_refl 1)).final
  | takeIn d =>
    have hpaid : 1 ≤ 1 + d.size := Nat.le_add_right 1 _
    exact ((hcharge s hpaid).bind fun _ t ht => .of_ok rfl ht :
      Run.Leads (Run.importDatum d) s (fun _ t => 1 ≤ t.meter.used) fun t => 1 ≤ t.meter.used).final
  | _ => cases hop

namespace Steps

variable {env : Env} {α β : Type}

/-- The first operation of a computation, if there is one, is paid for. -/
def Opens (env : Env) (x : Steps α) (s : State) : Prop :=
  ∀ event ∈ (events env x s).head?, event.operation.isPaid = true

variable {s : State} {x : Steps α}

theorem Opens.of_nil (h : events env x s = []) : Opens env x s := by
  intro event hevent
  rw [h] at hevent
  cases hevent

def StartsPaid (env : Env) (x : Steps α) (s : State) : Prop :=
  ∃ event rest, events env x s = event :: rest ∧ event.operation.isPaid = true

theorem StartsPaid.perform {op : Operation α} (hop : op.isPaid = true) (s : State) :
    StartsPaid env (.perform op) s :=
  ⟨_, [], rfl, hop⟩

theorem StartsPaid.bind (hx : StartsPaid env x s) (f : α → Steps β) :
    StartsPaid env (x >>= f) s := by
  obtain ⟨event, rest, hevents, hpaid⟩ := hx
  cases hr : run env x s with
  | ok a t => exact ⟨event, _, by rw [events_bind_ok hr, hevents]; rfl, hpaid⟩
  | error halt t => exact ⟨event, rest, by rw [events_bind_error hr, hevents], hpaid⟩

theorem StartsPaid.opens (hx : StartsPaid env x s) : Opens env x s := by
  obtain ⟨event, rest, hevents, hpaid⟩ := hx
  intro first hfirst
  rw [hevents] at hfirst
  cases hfirst
  exact hpaid

/-- If nothing happens in the first computation, the second one opens. -/
theorem Opens.bind {f : α → Steps β} (hx : Opens env x s) (hf : ∀ a t, Opens env (f a) t) :
    Opens env (x >>= f) s := by
  intro event hevent
  cases hr : run env x s with
  | ok a t =>
    rw [events_bind_ok hr, List.head?_append] at hevent
    rcases Option.or_eq_some_iff.mp hevent with hfirst | hsecond
    · exact hx event hfirst
    · exact hf a t event hsecond.2
  | error halt t =>
    rw [events_bind_error hr] at hevent
    exact hx event hevent

/-- A run opens by taking in data, or by entering the function that it starts with. -/
theorem opens_program (p : Program) (context : RunContext) (levels : Nat) (s : State) :
    Opens env (program env p context (levels + 1)) s := by
  -- names from outside are paid for, if there are any
  have hidentifiers : Opens env (bindIdentifiers context.identifiers) s := by
    cases context.identifiers with
    | nil => exact .of_nil rfl
    | cons identifier rest => exact ((StartsPaid.perform rfl s).bind _).opens
  have hentry : ∀ t, Opens env (ofOutcome (p.entry context.start)) t := by
    intro t
    cases p.entry context.start with
    | ok f => exact .of_nil rfl
    | error e => exact .of_nil rfl
  have hargs : ∀ t, Opens env (each (fun d => perform (.takeIn d)) context.args) t := by
    intro t
    cases context.args with
    | nil => exact .of_nil rfl
    | cons d rest => exact ((StartsPaid.perform rfl t).bind _).opens
  -- in any case the call is entered, which is paid for
  have hcall : ∀ f args t, StartsPaid env ((evaluators env (levels + 1)).call f args) t :=
    fun _ _ t => (StartsPaid.perform rfl t).bind _
  refine hidentifiers.bind fun _ t => (hentry t).bind fun f u => (hargs u).bind fun args w => ?_
  exact ((hcall f args w).bind _).opens

end Steps

/-- Every operation that is not paid for itself comes behind one that is. -/
theorem Program.used_pos_of_mem_events {program : Program} {context : RunContext} {limits : Limits}
    {collaborators : Collaborators} {event : Event}
    (hevent : event ∈ program.events context limits collaborators)
    (hop : event.operation.isPaid = false) : 1 ≤ event.before.meter.used := by
  obtain ⟨ending, _, hlinked⟩ := program.linked_events context limits collaborators
  have hopens : Steps.Opens (program.env limits collaborators)
      (program.steps context limits collaborators) limits.start := Steps.opens_program _ _ _ _
  have hsucceeded : ∀ event ∈ (program.events context limits collaborators).dropLast,
      event.Succeeded := Steps.succeeded_of_mem_dropLast _ _
  have hresults : ∀ event ∈ program.events context limits collaborators, event.after =
      Run.final (event.operation.perform (program.env limits collaborators) event.before) :=
    fun event hevent => congrArg Run.final (Steps.result_of_mem_events hevent)
  unfold Steps.Opens at hopens
  change ∀ event ∈ (program.events context limits collaborators).head?, _ at hopens
  cases hevents : program.events context limits collaborators with
  | nil =>
    rw [hevents] at hevent
    cases hevent
  | cons first rest =>
    rw [hevents] at hevent hlinked hopens hsucceeded hresults
    have hfirst := hopens first rfl
    rcases List.mem_cons.mp hevent with rfl | hlater
    · rw [hfirst] at hop
      cases hop
    -- the first event is paid for, and no later one sets the meter back
    · have hmoved : 1 ≤ first.after.meter.used := by
        rw [hresults first List.mem_cons_self]
        exact Operation.used_pos_of_isPaid hfirst first.before
      refine hlinked.2.forall_before (P := fun s => 1 ≤ s.meter.used) ?_ ?_ ?_ hmoved event hlater
      · intro s s' hstore hs
        rw [hstore.meter]
        exact hs
      · intro event hevent _ hbefore
        obtain ⟨change, _, hdone⟩ := event.operation.exists_change
          (program.env limits collaborators) event.before
        have hpaid := hdone.paid
        have hmax : 1 ≤ maxUnits := by decide
        rw [hresults event (List.mem_cons_of_mem _ hevent)]
        unfold saturate at hpaid
        omega
      · intro event hevent
        refine hsucceeded event ?_
        rw [List.dropLast_cons_of_ne_nil (List.ne_nil_of_mem hlater)]
        exact List.mem_cons_of_mem _ hevent

end MeteredScript
