import MeteredScript.Proofs.Dependencies
import MeteredScript.Proofs.Sharing

namespace MeteredScript

/-! # The lengths of texts

A run makes texts by joining texts, which have at most the length that the limit allows, and by asking
for the type of a value. All others come from the literals of the program, from the context and from
the answers of collaborators. Main statement: no text in memory, in any state of a run, is longer than
the longest of these, and neither is any text of the result. The answers are those that the run was
given: it comes to the same with collaborators that refuse to give a longer one
(`Collaborators.within`), and for those the bound is a regime.
-/

/-! ## Texts -/

def Value.texts : Value → List String
  | .string text => [text]
  | _ => []

namespace Datum

mutual

/-- The texts in a piece of data; keys are none. -/
def texts : Datum → List String
  | string text => [text]
  | array items => textsOfItems items
  | object entries => textsOfEntries entries
  | _ => []

def textsOfItems : List Datum → List String
  | [] => []
  | item :: rest => texts item ++ textsOfItems rest

def textsOfEntries : List (String × Datum) → List String
  | [] => []
  | (_, value) :: rest => texts value ++ textsOfEntries rest

end

theorem mem_texts_array {items : List Datum} {text : String} :
    text ∈ (array items).texts ↔ ∃ item ∈ items, text ∈ item.texts := by
  have hitems : textsOfItems items = items.flatMap texts := by
    induction items with
    | nil => simp [textsOfItems]
    | cons item rest ih => simp [textsOfItems, ih]
  rw [texts, hitems, List.mem_flatMap]

theorem mem_texts_object {entries : List (String × Datum)} {text : String} :
    text ∈ (object entries).texts ↔ ∃ entry ∈ entries, text ∈ entry.2.texts := by
  have hentries : textsOfEntries entries = entries.flatMap fun entry => entry.2.texts := by
    induction entries with
    | nil => simp [textsOfEntries]
    | cons entry rest ih => simp [textsOfEntries, ih]
  rw [texts, hentries, List.mem_flatMap]

end Datum

def longest (texts : List String) : Nat :=
  texts.foldr (fun text length => max text.utf8ByteSize length) 0

theorem le_longest {texts : List String} {text : String} (h : text ∈ texts) :
    text.utf8ByteSize ≤ longest texts := by
  induction texts with
  | nil => simp at h
  | cons first rest ih =>
    have hmax : longest (first :: rest) = max first.utf8ByteSize (longest rest) := rfl
    rw [hmax]
    rcases List.mem_cons.mp h with rfl | hrest
    · exact Nat.le_max_left _ _
    · exact Nat.le_trans (ih hrest) (Nat.le_max_right _ _)

def Value.Within (bound : Nat) (v : Value) : Prop := ∀ text ∈ v.texts, text.utf8ByteSize ≤ bound

/-- Data without longer texts. -/
def Datum.Within (bound : Nat) (d : Datum) : Prop := ∀ text ∈ d.texts, text.utf8ByteSize ≤ bound

instance (bound : Nat) (d : Datum) : Decidable (d.Within bound) :=
  inferInstanceAs (Decidable (∀ text ∈ d.texts, text.utf8ByteSize ≤ bound))

variable {α : Type} {env : Env} {bound : Nat} {op : Operation α} {s : State}

theorem Value.within_of_isSimple {v : Value} (h : v.isSimple = true) : v.Within bound := by
  cases v with
  | string text => simp [isSimple] at h
  | _ => simp [Within, texts]

theorem Value.within_of_isContainer {v : Value} (h : v.isContainer = true) : v.Within bound := by
  cases v with
  | string text => simp [isContainer] at h
  | _ => simp [Within, texts]

theorem Value.within_string {text : String} :
    (string text).Within bound ↔ text.utf8ByteSize ≤ bound := by
  simp [Within, texts]

theorem Value.typeName_le (v : Value) : v.typeName.utf8ByteSize ≤ 9 := by
  cases v <;> simp only [typeName] <;> decide

/-! ## Copying -/

namespace Heap

variable {bound : Nat}

mutual

/-- Copying data without longer texts onto a heap without longer texts. -/
theorem within_importAt (level : Nat) {heap : Heap} (h : heap.Hold (Value.Within bound)) {d : Datum}
    (hd : d.Within bound) :
    (importAt level heap d).1.Hold (Value.Within bound) ∧ (importAt level heap d).2.Within bound := by
  cases d with
  | array items =>
    have hitems : ∀ item ∈ items, item.Within bound := fun item hitem text htext =>
      hd text (Datum.mem_texts_array.mpr ⟨item, hitem, htext⟩)
    -- nothing has been copied yet
    have hnone : ∀ v ∈ ([] : List Value), v.Within bound := by simp
    have hdone := within_importItems (level + 1) h hnone hitems
    unfold importAt
    rw [deepen_eq]
    exact ⟨hdone.1.addArray hdone.2, Value.within_of_isContainer rfl⟩
  | object entries =>
    have hentries : ∀ entry ∈ entries, entry.2.Within bound := fun entry hentry text htext =>
      hd text (Datum.mem_texts_object.mpr ⟨entry, hentry, htext⟩)
    have hnone : ∀ entry ∈ ([] : List (String × Value)), entry.2.Within bound := by simp
    have hdone := within_importEntries (level + 1) h hnone hentries
    unfold importAt
    rw [deepen_eq]
    exact ⟨hdone.1.addObject hdone.2, Value.within_of_isContainer rfl⟩
  | string text => exact ⟨h, hd⟩
  | _ => exact ⟨h, Value.within_of_isSimple rfl⟩

theorem within_importItems (level : Nat) {heap : Heap} (h : heap.Hold (Value.Within bound))
    {done : List Value} (hdone : ∀ v ∈ done, v.Within bound) {items : List Datum}
    (hitems : ∀ item ∈ items, item.Within bound) :
    (importItems level heap done items).1.Hold (Value.Within bound) ∧
      ∀ v ∈ (importItems level heap done items).2, v.Within bound := by
  cases items with
  | nil => exact ⟨h, fun v hv => hdone v (List.mem_reverse.mp hv)⟩
  | cons item rest =>
    obtain ⟨hitem, hrest⟩ := List.forall_mem_cons.mp hitems
    obtain ⟨hheap, hv⟩ := within_importAt level h hitem
    exact within_importItems level hheap (List.forall_mem_cons.mpr ⟨hv, hdone⟩) hrest

theorem within_importEntries (level : Nat) {heap : Heap} (h : heap.Hold (Value.Within bound))
    {done : List (String × Value)} (hdone : ∀ entry ∈ done, entry.2.Within bound)
    {entries : List (String × Datum)} (hentries : ∀ entry ∈ entries, entry.2.Within bound) :
    (importEntries level heap done entries).1.Hold (Value.Within bound) ∧
      ∀ v ∈ (importEntries level heap done entries).2.map Prod.snd, v.Within bound := by
  cases entries with
  | nil =>
    refine ⟨h, fun v hv => ?_⟩
    obtain ⟨entry, hentry, rfl⟩ := List.mem_map.mp hv
    exact hdone entry (List.mem_reverse.mp hentry)
  | cons entry rest =>
    obtain ⟨hentry, hrest⟩ := List.forall_mem_cons.mp hentries
    obtain ⟨hheap, hv⟩ := within_importAt level h hentry
    exact within_importEntries level hheap (List.forall_mem_cons.mpr ⟨hv, hdone⟩) hrest

end

variable {d : Datum} {heap : Heap} {level limit : Nat} {around : Surroundings} {v : Value}

theorem admits_of_exportAt? (h : heap.exportAt? level limit around v = .ok d)
    (hv : v.isContainer = true) : around.admits v = true := by
  unfold exportAt? at h
  cases v with
  | array handle =>
    apply Surroundings.admits_array.mpr
    intro haround
    simp [haround] at h
  | object handle =>
    apply Surroundings.admits_object.mpr
    intro haround
    simp [haround] at h
  | _ => simp [Value.isContainer] at hv

/-- What a list gives comes from one of its members. -/
theorem exists_of_mem_mapM {α β ε : Type} {f : α → Except ε β} {l : List α} {results : List β}
    (h : l.mapM f = .ok results) {b : β} (hb : b ∈ results) : ∃ a ∈ l, f a = .ok b := by
  have hpairs : List.Forall₂ (fun a b => f a = .ok b) l results :=
    forall₂_of_mapM h fun _ _ _ hresult => hresult
  exact exists_mem_of_forall₂ hpairs.flip hb

/-- What is no array or object is copied as it is. -/
theorem within_exportAt?_scalar (hv : v.Within bound)
    (hd : heap.exportAt? level limit around v = .ok d) (hscalar : v.isContainer = false) :
    d.Within bound := by
  have htexts : d.texts = v.texts := by
    unfold exportAt? at hd
    cases v with
    | array handle | object handle => simp [Value.isContainer] at hscalar
    | _ =>
      rcases Except.ok.inj hd with rfl
      simp [Datum.texts, Value.texts]
  intro text htext
  rw [htexts] at htext
  exact hv text htext

/-- A copy of a value without longer texts, off a heap without longer texts. -/
theorem within_exportAt? (h : heap.Hold (Value.Within bound)) (hv : v.Within bound)
    (hd : heap.exportAt? level limit around v = .ok d) : d.Within bound := by
  induction limit generalizing level around v d with
  | zero =>
    cases v with
    | array handle | object handle =>
      -- nothing inside is copied, so there are no texts
      unfold exportAt? at hd
      dsimp only at hd
      split at hd
      · simp at hd
      · rcases Except.ok.inj hd with rfl
        simp [Datum.Within, Datum.texts, Datum.textsOfItems, Datum.textsOfEntries]
    | _ => exact within_exportAt?_scalar hv hd rfl
  | succ limit ih =>
    cases v with
    | array handle =>
      obtain ⟨items, rfl, hitems⟩ := exists_of_exportAt?_array hd (admits_of_exportAt? hd rfl)
      intro text htext
      obtain ⟨item, hitem, htext⟩ := Datum.mem_texts_array.mp htext
      obtain ⟨w, hw, hcopy⟩ := exists_of_mem_mapM hitems hitem
      exact ih (h.elements handle w (Array.mem_toList_iff.mp hw)) hcopy text htext
    | object handle =>
      obtain ⟨entries, rfl, hentries⟩ := exists_of_exportAt?_object hd (admits_of_exportAt? hd rfl)
      intro text htext
      obtain ⟨entry, hentry, htext⟩ := Datum.mem_texts_object.mp htext
      obtain ⟨old, hold, hcopy⟩ := exists_of_mem_mapM hentries hentry
      cases hvalue : heap.exportAt? (level + 1) limit
          (Surroundings.enter around (.object handle)) old.2 with
      | error fault => simp [hvalue, Bind.bind, Except.bind] at hcopy
      | ok value =>
        simp only [hvalue, Bind.bind, Except.bind, Pure.pure, Except.pure] at hcopy
        rcases Except.ok.inj hcopy with rfl
        exact ih (h.properties handle old hold) hvalue text htext
    | _ => exact within_exportAt?_scalar hv hd rfl

end Heap

/-! ## The regime -/

/-- No text in memory is longer. -/
def State.Within (bound : Nat) (s : State) : Prop := s.Hold (Value.Within bound)

def Regime.textsWithin (bound : Nat) : Regime where
  Sound := State.Within bound
  Fits := fun _ v => v.Within bound
  Grows := fun _ _ => True
  Admits := Datum.Within bound
  Issues := fun _ d => d.Within bound

/-- The values that an operation gives are no longer texts, if the limit on joined texts is not beyond
the bound. -/
theorem Operation.within_values (htypes : 9 ≤ bound) (henv : env.maxStringLength ≤ bound)
    (hready : (Regime.textsWithin bound).Ready op s) :
    Run.Leads (op.perform env) s (fun a _ => ∀ v ∈ op.values a, v.Within bound) fun _ => True := by
  have hs : s.Within bound := hready.sound
  have hone : ∀ {v : Value}, v.Within bound → ∀ w ∈ [v], w.Within bound := fun hv =>
    List.forall_mem_singleton.mpr hv
  have hpaid : ∀ units, Run.Leads (Run.charge units) s (fun _ t => s.Paid units t) fun _ => True :=
    fun units => (Run.Leads.charge units).mono (fun _ _ ht => ht) fun _ _ => trivial
  cases op with
  | lookup name =>
    refine .of_ok rfl fun v hv => ?_
    exact hs.frames.get? (Option.mem_toList.mp hv)
  | read location span =>
    have hsimple : ∀ v : Value, v.isSimple = true → v.Within bound := fun _ =>
      Value.within_of_isSimple
    exact (Run.readLocation_hold hsimple hs location span).mono (fun _ _ hv => hone hv.1)
      fun _ _ => trivial
  | step op location span =>
    exact (Run.always_stepLocation op location span s).mono
      (fun _ _ h => hone (Value.within_of_isSimple h)) fun _ _ => trivial
  -- texts are joined only up to the limit
  | combine op left right =>
    refine (Run.always_binary env.maxStringLength op left right s).mono (fun v t hv => hone ?_)
      fun _ _ => trivial
    rcases hv with hsimple | ⟨text, rfl, hlength⟩
    · exact Value.within_of_isSimple hsimple
    · exact Value.within_string.mpr (Nat.le_trans hlength henv)
  -- the one text that an operator in front makes is the name of a type
  | apply op v =>
    refine (Run.always_unary op v s).mono (fun w t hw => hone ?_) fun _ _ => trivial
    rcases hw with hsimple | rfl
    · exact Value.within_of_isSimple hsimple
    · exact Value.within_string.mpr (Nat.le_trans v.typeName_le htypes)
  | makeArray elements =>
    exact (hpaid _).bind fun _ t _ => .of_ok rfl (hone (Value.within_of_isContainer rfl))
  | makeObject entries =>
    exact (hpaid _).bind fun _ t _ => .of_ok rfl (hone (Value.within_of_isContainer rfl))
  | callMethod receiver method args span =>
    exact (Run.always_callMethod receiver method args span s).mono
      (fun _ _ h => hone (Value.within_of_isSimple h)) fun _ _ => trivial
  | takeIn d =>
    refine (hpaid _).bind fun _ t ht => .of_ok rfl (hone ?_)
    have hheap : t.heap.Hold (Value.Within bound) := by
      rw [ht.heap]
      exact hs.heap
    exact (Heap.within_importAt 0 hheap (hready.taken d List.mem_cons_self)).2
  | _ =>
    refine ⟨fun _ v hv => ?_, fun _ => trivial⟩
    exact absurd hv List.not_mem_nil

/-- An operation that is given no longer texts leaves none in memory, whether it fails or not. -/
theorem Operation.within_final (hready : (Regime.textsWithin bound).Ready op s) :
    (Run.final (op.perform env s)).Within bound := by
  have hs : s.Within bound := hready.sound
  obtain ⟨change, hfrom, hdone⟩ := op.exists_change env s
  -- what is put into memory was given to the operation, or is no text
  have hvalues : ∀ v ∈ change.values, v.Within bound := by
    intro v hv
    rcases hfrom.values v hv with hoperand | hsimple
    · exact hready.operands v hoperand
    · exact Value.within_of_isSimple hsimple
  have hdata : ∀ d ∈ change.data, (s.heap.importDatum d).1.Hold (Value.Within bound) := by
    intro d hd
    exact (Heap.within_importAt 0 hs.heap (hready.taken d (hfrom.data d hd))).1
  constructor
  · rw [hdone.heap]
    exact change.hold_onHeap hs.heap hvalues hdata
  · rw [hdone.frames]
    exact change.hold_onFrames hs.frames hvalues

/-- Every operation keeps to the bound, if names of types and joined texts do and collaborators answer
within it. -/
theorem Regime.textsWithin_kept (htypes : 9 ≤ bound) (henv : env.maxStringLength ≤ bound)
    (hanswers : ∀ {α : Type} {op : Operation α} {s t : State} {a : α},
      op.perform env s = .ok a t → ∀ d ∈ op.answered a, d.Within bound) :
    (Regime.textsWithin bound).Kept env where
  refl := fun _ => trivial
  trans := fun _ _ => trivial
  fits_of_grows := fun _ hv => hv
  simple := Value.within_of_isSimple
  typeName := fun _ v => Value.within_string.mpr (Nat.le_trans v.typeName_le htypes)
  push := fun hs => ⟨hs.heap, hs.frames.push⟩
  pop := fun hs => ⟨hs.heap, hs.frames.pop⟩
  sound := Operation.within_final
  grows := fun _ => trivial
  values := fun hready ha => (Operation.within_values htypes henv hready).ok ha
  answered := fun _ ha => hanswers ha
  issued := by
    intro α op s t a hready hperform d hd
    have hs : s.Within bound := hready.sound
    cases op with
    | copyOut v span =>
      rcases List.mem_singleton.mp hd with rfl
      obtain ⟨hexport, _⟩ := Run.eq_ok_of_exportDatum hperform
      rw [Heap.exportDatum?_eq] at hexport
      exact Heap.within_exportAt? hs.heap (hready.operands v List.mem_cons_self) hexport
    | _ => exact absurd hd List.not_mem_nil

/-! ## Answers of collaborators -/

/-- An answer, unless it has longer texts. -/
def answerWithin (bound : Nat) : Except Error Datum → Except Error Datum
  | .ok d => if d.Within bound then .ok d else .error default
  | .error e => .error e

/-- Collaborators that refuse to give answers with longer texts. -/
def Collaborators.within (collaborators : Collaborators) (bound : Nat) : Collaborators where
  tokenExecutor := collaborators.tokenExecutor.map fun execute id args =>
    answerWithin bound (execute id args)
  contractCaller := collaborators.contractCaller.map fun call address signature returnType args =>
    answerWithin bound (call address signature returnType args)

theorem within_of_answerWithin {outcome : Except Error Datum} {d : Datum}
    (h : answerWithin bound outcome = .ok d) : d.Within bound := by
  cases outcome with
  | error e => simp [answerWithin] at h
  | ok answer =>
    unfold answerWithin at h
    dsimp only at h
    split at h
    · rename_i hwithin
      rcases Except.ok.inj h with rfl
      exact hwithin
    · simp at h

theorem answerWithin_eq {outcome : Except Error Datum} (h : ∀ d, outcome = .ok d → d.Within bound) :
    answerWithin bound outcome = outcome := by
  cases outcome with
  | error e => rfl
  | ok d => exact if_pos (h d rfl)

/-- What stays the same in a run, with collaborators that refuse to give answers with longer texts. -/
def Env.within (env : Env) (bound : Nat) : Env :=
  { env with collaborators := env.collaborators.within bound }

/-- A result comes from an answer. -/
theorem Run.eq_ok_of_ofOutcome {outcome : Except Error α} {t : State} {a : α}
    (h : Run.ofOutcome outcome s = .ok a t) : outcome = .ok a := by
  cases outcome with
  | error e => cases h
  | ok b =>
    cases h
    rfl

/-- What comes of asking, with collaborators that refuse some answers and with those that do not. -/
theorem Run.exists_askToken (collaborators : Collaborators) (bound : Nat) (id : Decimal)
    (args : List Datum) :
    ∃ outcome, Run.askToken collaborators id args = Run.ofOutcome outcome ∧
      Run.askToken (collaborators.within bound) id args =
        Run.ofOutcome (answerWithin bound outcome) := by
  unfold Run.askToken Collaborators.within
  cases collaborators.tokenExecutor with
  | none => exact ⟨.error (.collaborator .noTokenExecutor), rfl, rfl⟩
  | some execute => exact ⟨execute id args, rfl, rfl⟩

theorem Run.exists_askContract (collaborators : Collaborators) (bound : Nat)
    (address signature : String) (returnType : Datum) (args : List Datum) :
    ∃ outcome,
      Run.askContract collaborators address signature returnType args = Run.ofOutcome outcome ∧
      Run.askContract (collaborators.within bound) address signature returnType args =
        Run.ofOutcome (answerWithin bound outcome) := by
  unfold Run.askContract Collaborators.within
  cases collaborators.contractCaller with
  | none => exact ⟨.error (.collaborator .noContractCaller), rfl, rfl⟩
  | some call => exact ⟨call address signature returnType args, rfl, rfl⟩

/-- Refusing collaborators give no answers with longer texts. -/
theorem Operation.within_answered {t : State} {a : α}
    (h : op.perform (env.within bound) s = .ok a t) : ∀ d ∈ op.answered a, d.Within bound := by
  intro d hd
  cases op with
  | askToken id args =>
    obtain ⟨outcome, _, hask⟩ := Run.exists_askToken env.collaborators bound id args
    rcases List.mem_singleton.mp hd with rfl
    exact within_of_answerWithin (Run.eq_ok_of_ofOutcome ((congrFun hask s).symm.trans h))
  | askContract address signature returnType args =>
    obtain ⟨outcome, _, hask⟩ :=
      Run.exists_askContract env.collaborators bound address signature returnType args
    rcases List.mem_singleton.mp hd with rfl
    exact within_of_answerWithin (Run.eq_ok_of_ofOutcome ((congrFun hask s).symm.trans h))
  | _ => exact absurd hd List.not_mem_nil

/-- Where no answer is refused, an operation comes to the same. -/
theorem Operation.perform_within
    (h : ∀ a t, op.perform env s = .ok a t → ∀ d ∈ op.answered a, d.Within bound) :
    op.perform (env.within bound) s = op.perform env s := by
  cases op with
  | askToken id args =>
    obtain ⟨outcome, hask, hask'⟩ := Run.exists_askToken env.collaborators bound id args
    -- the answer that was given is within the bound, so it is not refused
    have hwithin : answerWithin bound outcome = outcome := by
      apply answerWithin_eq
      rintro d rfl
      exact h d s (congrFun hask s) d List.mem_cons_self
    change Run.askToken (env.collaborators.within bound) id args s =
      Run.askToken env.collaborators id args s
    rw [hask, hask', hwithin]
  | askContract address signature returnType args =>
    obtain ⟨outcome, hask, hask'⟩ :=
      Run.exists_askContract env.collaborators bound address signature returnType args
    have hwithin : answerWithin bound outcome = outcome := by
      apply answerWithin_eq
      rintro d rfl
      exact h d s (congrFun hask s) d List.mem_cons_self
    change Run.askContract (env.collaborators.within bound) address signature returnType args s =
      Run.askContract env.collaborators address signature returnType args s
    rw [hask, hask', hwithin]
  | _ => rfl

/-! ## Whole runs -/

/-- The texts among the literals of a program. -/
def Label.texts : Label → List String
  | .literal (.string text) => [text]
  | _ => []

def Program.texts (program : Program) : List String :=
  program.outline.preorder.flatMap fun node => node.label.texts

def RunContext.texts (context : RunContext) : List String :=
  context.args.flatMap Datum.texts ++ context.identifiers.flatMap fun identifier => identifier.2.texts

/-- The data that a collaborator answered with. -/
def Event.answers (event : Event) : List Datum :=
  match event.result with
  | .ok a _ => event.operation.answered a
  | .error _ _ => []

/-- The texts in the answers that collaborators gave. -/
def answeredTexts (events : List Event) : List String :=
  events.flatMap fun event => event.answers.flatMap Datum.texts

/-- The length that no text in a run exceeds: the limit on joined texts, the longest name of a type, or
the longest text that comes from the program, from the context or from collaborators. -/
def Program.textBound (program : Program) (context : RunContext) (limits : Limits)
    (collaborators : Collaborators) : Nat :=
  max (max limits.maxStringLength 9) (longest (program.texts ++ context.texts ++
    answeredTexts (program.events context limits collaborators)))

/-- Evaluation meets only literals that are not longer. -/
theorem Regime.textsWithin_covers (program : Program) (limits : Limits)
    (collaborators : Collaborators) (h : ∀ text ∈ program.texts, text.utf8ByteSize ≤ bound) :
    (Regime.textsWithin bound).Covers (program.env limits collaborators)
      (· ∈ program.outline.preorder) where
  inherited := Outline.inherited_mem_preorder _
  functions := fun {_ f} hf => Program.mem_preorder_function (FunctionTable.mem_of_getElem? hf)
    f.outline.mem_preorder_self
  literals := by
    intro value span hnode heap
    cases value with
    | string text =>
      -- A literal is a node of the program, so its text is among those bounded.
      apply Value.within_string.mpr
      apply h
      refine List.mem_flatMap.mpr ⟨_, hnode, ?_⟩
      rw [Expr.label_literal]
      exact List.mem_cons_self
    | _ => exact Value.within_of_isSimple rfl

namespace Program

variable {program : Program} {context : RunContext} {limits : Limits} {collaborators : Collaborators}
  {bound : Nat}

/-- What a run does next depends on its collaborators through their answers only. -/
theorem steps_within (program : Program) (context : RunContext) (limits : Limits)
    (collaborators : Collaborators) (bound : Nat) :
    program.steps context limits (collaborators.within bound) =
      program.steps context limits collaborators := by
  have hfunctions : (program.env limits (collaborators.within bound)).functions =
      (program.env limits collaborators).functions := rfl
  unfold Program.steps Steps.program
  rw [Steps.evaluators_congr _ hfunctions]

/-- With collaborators that refuse to give longer texts, a run that is given none comes to the same and
takes the same course. -/
theorem steps_congr_within
    (h : ∀ text ∈ answeredTexts (program.events context limits collaborators),
      text.utf8ByteSize ≤ bound) :
    (program.steps context limits collaborators).run ((program.env limits collaborators).within bound)
        limits.start =
      (program.steps context limits collaborators).run (program.env limits collaborators)
        limits.start ∧
    (program.steps context limits collaborators).events
        ((program.env limits collaborators).within bound) limits.start =
      program.events context limits collaborators := by
  apply Steps.congr_of_events
  intro event hevent
  apply Operation.perform_within
  intro a t ha d hd text htext
  apply h
  refine List.mem_flatMap.mpr ⟨event, hevent, List.mem_flatMap.mpr ⟨d, ?_, htext⟩⟩
  rw [Event.answers, (Steps.result_of_mem_events hevent).trans ha]
  exact hd

/-- A bound on all texts that come from elsewhere is kept throughout a run. -/
theorem keeps_textsWithin (htypes : 9 ≤ bound) (hlimit : limits.maxStringLength ≤ bound)
    (hprogram : ∀ text ∈ program.texts, text.utf8ByteSize ≤ bound)
    (hcontext : ∀ text ∈ context.texts, text.utf8ByteSize ≤ bound)
    (hanswers : ∀ text ∈ answeredTexts (program.events context limits collaborators),
      text.utf8ByteSize ≤ bound) :
    (Regime.textsWithin bound).Keeps (program.env limits collaborators)
      (program.steps context limits collaborators) limits.start fun _ d => d.Within bound := by
  have hkept : (Regime.textsWithin bound).Kept ((program.env limits collaborators).within bound) :=
    Regime.textsWithin_kept htypes hlimit Operation.within_answered
  have hcovers := Regime.textsWithin_covers program limits (collaborators.within bound) hprogram
  have hentry : ∀ f, program.entry context.start = .ok f → f.outline ∈ program.outline.preorder :=
    fun f hf => mem_preorder_function (entry_mem hf) f.outline.mem_preorder_self
  have hidentifiers : ∀ identifier ∈ context.identifiers, identifier.2.Within bound := by
    intro identifier hidentifier text htext
    apply hcontext
    exact List.mem_append_right _ (List.mem_flatMap.mpr ⟨identifier, hidentifier, htext⟩)
  have hargs : ∀ d ∈ context.args, d.Within bound := by
    intro d hd text htext
    apply hcontext
    exact List.mem_append_left _ (List.mem_flatMap.mpr ⟨d, hd, htext⟩)
  have hstart : limits.start.Within bound := State.hold_start limits _
  have hkeeps : (Regime.textsWithin bound).Keeps ((program.env limits collaborators).within bound)
      (program.steps context limits (collaborators.within bound)) limits.start
      fun _ d => d.Within bound :=
    hkept.program hcovers hentry hidentifiers hargs hstart
  -- the run with collaborators that refuse is the run itself
  obtain ⟨hrun, hevents⟩ := steps_congr_within hanswers
  rw [steps_within] at hkeeps
  constructor
  · intro event hevent
    apply hkeeps.events
    rw [hevents]
    exact hevent
  · rw [← hrun]
    exact hkeeps.sound
  · rw [← hrun]
    exact hkeeps.grows
  · intro d t hd
    rw [← hrun] at hd
    exact hkeeps.result hd

theorem textsWithin_steps (program : Program) (context : RunContext) (limits : Limits)
    (collaborators : Collaborators) :
    (Regime.textsWithin (program.textBound context limits collaborators)).Keeps
      (program.env limits collaborators) (program.steps context limits collaborators) limits.start
      fun _ d => d.Within (program.textBound context limits collaborators) := by
  -- each of the three sources of texts is part of the maximum
  have htexts : ∀ text ∈ program.texts ++ context.texts ++
      answeredTexts (program.events context limits collaborators),
      text.utf8ByteSize ≤ program.textBound context limits collaborators := by
    intro text htext
    exact Nat.le_trans (le_longest htext) (Nat.le_max_right _ _)
  obtain ⟨hgiven, hanswers⟩ := List.forall_mem_append.mp htexts
  obtain ⟨hprogram, hcontext⟩ := List.forall_mem_append.mp hgiven
  have hlimits : max limits.maxStringLength 9 ≤ program.textBound context limits collaborators :=
    Nat.le_max_left _ _
  apply keeps_textsWithin
  · omega
  · omega
  · exact hprogram
  · exact hcontext
  · exact hanswers

/-- No text is longer than the limit allows, or than what comes from elsewhere. The run ends as its
steps do, which take it from the start to its last state. Before and after each operation, and in the
last state, no text in memory is longer than the bound; neither is one that an operation was given, or
gave; and if the run succeeds, neither is any text of its result. -/
theorem run_keeps_text_bound (program : Program) (context : RunContext) (limits : Limits)
    (collaborators : Collaborators) :
    ∃ ending, program.run context limits collaborators = .ofResult ending ∧
      Linked limits.start (program.events context limits collaborators) (Run.final ending) ∧
      (Run.final ending).Within (program.textBound context limits collaborators) ∧
      (∀ event ∈ program.events context limits collaborators,
        event.before.Within (program.textBound context limits collaborators) ∧
        event.after.Within (program.textBound context limits collaborators) ∧
        (∀ v ∈ event.operation.operands, v.Within (program.textBound context limits collaborators)) ∧
        ∀ v ∈ event.values, v.Within (program.textBound context limits collaborators)) ∧
      ∀ d, (program.run context limits collaborators).result = .ok d →
        d.Within (program.textBound context limits collaborators) := by
  have hkeeps := program.textsWithin_steps context limits collaborators
  refine ⟨_, program.run_eq_steps context limits collaborators,
    program.linked_steps context limits collaborators, hkeeps.sound, ?_, ?_⟩
  · intro event hevent
    have hready := hkeeps.events event hevent
    have hresult := Steps.result_of_mem_events hevent
    refine ⟨hready.sound, ?_, hready.operands, ?_⟩
    · rw [Event.after, hresult]
      exact Operation.within_final hready
    · have hlimit : limits.maxStringLength ≤ program.textBound context limits collaborators :=
        Nat.le_trans (Nat.le_max_left _ _) (Nat.le_max_left _ _)
      have htypes : 9 ≤ program.textBound context limits collaborators :=
        Nat.le_trans (Nat.le_max_right _ _) (Nat.le_max_left _ _)
      -- an operation that fails gives no values
      obtain ⟨op, before, result⟩ := event
      intro v hv
      cases result with
      | ok a t => exact (Operation.within_values htypes hlimit hready).ok hresult.symm v hv
      | error halt t => exact absurd hv List.not_mem_nil
  · intro d hd
    obtain ⟨last, hlast, _⟩ := steps_eq_of_result hd
    exact hkeeps.result hlast

end Program

end MeteredScript
