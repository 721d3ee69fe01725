import MeteredScript.Proofs.Congruence
import MeteredScript.Proofs.Outline
import MeteredScript.Proofs.ParseSpans

namespace MeteredScript

/-! # Programs that differ in source ranges only

Source ranges are shown in errors and in the node table, and that is all they do: a program with other
ranges has the same nodes under the same numbers, runs alike, and fails alike. The comparison of runs is
an instance of the rules for related computations; what is new here is the node table, in which a run
looks up its entry.
-/

/-! ## Nodes -/

/-- A node with another source range. -/
def NumberedNode.mapSpan (σ : Span → Span) (node : NumberedNode) : NumberedNode :=
  { node with span := σ node.span }

namespace NodeTable

variable (σ : Span → Span)

mutual

theorem add_mapSpans (level : Nat) (table : NodeTable) : ∀ outline : Outline,
    add level (table.map (NumberedNode.mapSpan σ)) (outline.mapSpans σ) =
      (add level table outline).map (NumberedNode.mapSpan σ)
  | .node label span children => by
    rw [Outline.mapSpans, add, add, deepen_eq, deepen_eq]
    rw [addAll_mapSpans (level + 1) table [] children]
    dsimp only
    rw [Array.map_push]
    rfl

theorem addAll_mapSpans (level : Nat) (table : NodeTable) (numbers : List Nat) :
    ∀ outlines : List Outline,
    addAll level (table.map (NumberedNode.mapSpan σ)) numbers (mapSpansOutlines σ outlines) =
      ((addAll level table numbers outlines).1.map (NumberedNode.mapSpan σ),
        (addAll level table numbers outlines).2)
  | [] => rfl
  | outline :: rest => by
    rw [mapSpansOutlines, addAll, addAll, add_mapSpans level table outline, Array.size_map]
    exact addAll_mapSpans level _ _ rest

end

/-- Numbers may be put in before the ranges are changed. -/
theorem modify_mapSpan (table : NodeTable) (number : Nat) (numbers : List Nat) :
    (table.map (NumberedNode.mapSpan σ)).modify number (fun node => { node with children := numbers }) =
      (table.modify number fun node => { node with children := numbers }).map
        (NumberedNode.mapSpan σ) := by
  apply Array.ext_getElem?
  intro i
  rw [Array.getElem?_modify, Array.getElem?_map, Array.getElem?_map, Array.getElem?_modify]
  split
  · rw [Option.map_map, Option.map_map]
    rfl
  · rfl

theorem ofOutline_mapSpans (outline : Outline) :
    ofOutline (outline.mapSpans σ) = (ofOutline outline).map (NumberedNode.mapSpan σ) := by
  obtain ⟨label, span, children⟩ := outline
  have hall := addAll_mapSpans σ 0 #[⟨label, span, []⟩] [] children
  unfold ofOutline
  rw [← modify_mapSpan]
  simp only [Outline.mapSpans, Outline.label, Outline.span, Outline.children]
  rw [Array.map_singleton] at hall
  exact congrArg (fun built : NodeTable × List Nat =>
    built.1.modify 0 fun node => { node with children := built.2 }) hall

end NodeTable

namespace Program

variable (σ : Span → Span) (program : Program)

/-- Other source ranges are all that changes in the nodes. -/
theorem nodeTable_mapSpans :
    (program.mapSpans σ).nodeTable = program.nodeTable.map (NumberedNode.mapSpan σ) := by
  unfold nodeTable
  rw [outline_mapSpans, NodeTable.ofOutline_mapSpans]

theorem functions_mapSpans :
    (program.mapSpans σ).functions = program.functions.map (Function.mapSpans σ) := by
  unfold functions mapSpans
  rw [List.filterMap_map, List.map_filterMap]
  congr 1
  funext i
  cases i with
  | function f => rfl
  | statement s => rfl

theorem numberedFunctions_mapSpans :
    (program.mapSpans σ).numberedFunctions =
      program.numberedFunctions.map (Prod.map id (Function.mapSpans σ)) := by
  unfold numberedFunctions
  dsimp only
  have hnumbers : ((program.mapSpans σ).nodeTable[0]?.map NumberedNode.children).getD [] =
      (program.nodeTable[0]?.map NumberedNode.children).getD [] := by
    rw [nodeTable_mapSpans, Array.getElem?_map, Option.map_map]
    rfl
  rw [hnumbers, mapSpans, List.zip_map_right, List.filterMap_map, List.map_filterMap]
  congr 1
  funext numbered
  obtain ⟨number, i⟩ := numbered
  cases i with
  | function f => rfl
  | statement s => rfl

/-- A run starts with the same function, and where there is none it fails with the same error. -/
theorem entry_mapSpans (hσ : σ {} = {}) (start : Nat) :
    (program.mapSpans σ).entry start = mapEntrySpans σ (program.entry start) := by
  -- the function is found by its number, or is the first
  have hfound : (if start = 0 then (program.mapSpans σ).functions.head?
      else ((program.mapSpans σ).numberedFunctions.find? fun f => f.1 == start).map Prod.snd) =
      (if start = 0 then program.functions.head?
        else (program.numberedFunctions.find? fun f => f.1 == start).map Prod.snd).map
        (Function.mapSpans σ) := by
    rw [functions_mapSpans, numberedFunctions_mapSpans]
    split
    · rw [List.head?_map]
    · rw [List.find?_map, Option.map_map, Option.map_map]
      rfl
  -- a number that no node has gets an empty range, which stays empty
  have hspan : (if start = 0 then (program.mapSpans σ).span
      else ((program.mapSpans σ).nodeTable[start]?.map NumberedNode.span).getD {}) =
      σ (if start = 0 then program.span
        else (program.nodeTable[start]?.map NumberedNode.span).getD {}) := by
    rw [nodeTable_mapSpans]
    split
    · rfl
    · rw [Array.getElem?_map]
      cases program.nodeTable[start]? with
      | none => exact hσ.symm
      | some node => rfl
  unfold entry
  dsimp only
  rw [hfound, hspan]
  cases (if start = 0 then program.functions.head?
      else (program.numberedFunctions.find? fun f => f.1 == start).map Prod.snd) with
  | none => rfl
  | some f => rfl

end Program

/-! ## Errors -/

/-- Without ranges it does not matter which there were. -/
theorem Error.mapSpan_noSpan (σ : Span → Span) (e : Error) :
    (e.mapSpan σ).mapSpan noSpan = e.mapSpan noSpan := by
  cases e <;> rfl

/-- Errors that differ in source ranges only have one kind and one message. -/
theorem Error.kind_message_of_mapSpan {e e' : Error} (h : e'.mapSpan noSpan = e.mapSpan noSpan) :
    e'.kind = e.kind ∧ e'.message = e.message := by
  have hkind : ∀ e : Error, (e.mapSpan noSpan).kind = e.kind := fun e => by cases e <;> rfl
  have hmessage : ∀ e : Error, (e.mapSpan noSpan).message = e.message := fun e => by cases e <;> rfl
  rw [← hkind e', ← hmessage e', h, hkind, hmessage]
  exact ⟨rfl, rfl⟩

/-- How a run halted, without a source range. -/
def Halt.eraseSpan : Halt → Halt
  | .failed e => .failed (e.mapSpan noSpan)
  | .crashed c => .crashed c
  | .unfinished => .unfinished

/-! ## Runs -/

namespace Run

/-- A congruence that keeps the errors of collaborators compares the runs of a program with those of
the program that has other source ranges. -/
theorem Congruence.program_mapSpans {σ : Span → Span} {R : ∀ {α : Type}, Run α → Run α → Prop}
    (h : Congruence σ R) (hσ : σ {} = {})
    (hframe : ∀ {α : Type} {x y : Run α}, R x y → R (inFrame x) (inFrame y))
    (hstop : ∀ {α : Type}, R (unfinished : Run α) unfinished)
    (hglobal : ∀ name v, R (defineGlobal name v) (defineGlobal name v))
    {collaborators : Collaborators}
    (hanswer : ∀ e, collaborators.MayAnswer e → R (Run.fail e : Run Datum) (Run.fail e))
    (program : Program) (context : RunContext) (maxStringLength levels : Nat) :
    R (Run.program program ⟨FunctionTable.ofList program.functions, collaborators, maxStringLength⟩
        context levels)
      (Run.program (program.mapSpans σ)
        ⟨FunctionTable.ofList (program.mapSpans σ).functions, collaborators, maxStringLength⟩
        context levels) := by
  have hsim : Simulation σ ⟨FunctionTable.ofList program.functions, collaborators, maxStringLength⟩
      ⟨FunctionTable.ofList (program.functions.map (Function.mapSpans σ)), collaborators,
        maxStringLength⟩ R := by
    refine { toCongruenceOn := h, functions := ?_, concat := ?_, builtin := ?_ }
    -- a name is looked up last function first, on both sides
    · intro name
      unfold EnvOf.function?
      rw [FunctionTable.getElem?_ofList, FunctionTable.getElem?_ofList, ← List.map_reverse,
        List.find?_map]
      rfl
    · exact fun left right => h.concat _ left right
    · exact fun b args span => h.callBuiltin hanswer b args span
  have hlevels := hsim.evaluators hframe hstop levels
  rw [Program.functions_mapSpans]
  exact h.programBy_mapSpans hglobal (program.entry_mapSpans σ hσ context.start)
    fun f _ args => hlevels.call f args

/-- How a computation ended, without a source range. -/
def eraseResult {α : Type} : EStateM.Result Halt State α → EStateM.Result Halt State α
  | .ok a s => .ok a s
  | .error halt s => .error halt.eraseSpan s

/-- Without source ranges, results are the same or errors are. -/
theorem cases_of_eraseResult {α : Type} {r r' : EStateM.Result Halt State α}
    (h : eraseResult r' = eraseResult r) :
    (∃ a s, r = .ok a s ∧ r' = .ok a s) ∨
      ∃ halt halt' s, r = .error halt s ∧ r' = .error halt' s ∧
        halt'.eraseSpan = halt.eraseSpan := by
  cases r with
  | ok a s =>
    cases r' with
    | ok b t =>
      cases h
      exact .inl ⟨a, s, rfl, rfl⟩
    | error halt t => cases h
  | error halt s =>
    cases r' with
    | ok b t => cases h
    | error halt' t =>
      -- Erasing keeps the state of a failed run and all of a successful one.
      simp only [eraseResult, EStateM.Result.error.injEq] at h
      exact .inr ⟨halt, halt', s, rfl, by rw [h.2], h.1⟩

/-- Computations that do the same, state and all, but for the source ranges of errors. -/
def Alike {α : Type} (x y : Run α) : Prop := ∀ s, eraseResult (y s) = eraseResult (x s)

namespace Alike

variable {α β : Type} {x y : Run α}

theorem refl (x : Run α) : Alike x x := fun _ => rfl

theorem symm (h : Alike x y) : Alike y x := fun s => (h s).symm

theorem trans {z : Run α} (h : Alike x y) (h' : Alike y z) : Alike x z :=
  fun s => (h' s).trans (h s)

theorem bind {f g : α → Run β} (hxy : Alike x y) (hfg : ∀ a, Alike (f a) (g a)) :
    Alike (x >>= f) (y >>= g) := by
  intro s
  rcases cases_of_eraseResult (hxy s) with ⟨a, t, hx, hy⟩ | ⟨halt, halt', t, hx, hy, hhalt⟩
  · rw [bind_of_ok hx, bind_of_ok hy]
    exact hfg a t
  · rw [bind_of_error hx, bind_of_error hy, eraseResult, eraseResult, hhalt]

theorem inFrame (hxy : Alike x y) : Alike (Run.inFrame x) (Run.inFrame y) := by
  intro s
  unfold Run.inFrame
  rcases cases_of_eraseResult (hxy { s with frames := s.frames.push }) with
    ⟨a, t, hx, hy⟩ | ⟨halt, halt', t, hx, hy, hhalt⟩
  · rw [hx, hy]
  · rw [hx, hy]
    simp only [eraseResult, hhalt]

end Alike

/-- Being alike is kept by all rules. -/
theorem congruence_alike (σ : Span → Span) : Congruence σ Alike where
  pure a := .refl _
  bind hxy hfg := .bind hxy hfg
  fail e _ := by
    intro s
    show EStateM.Result.error (Halt.failed ((e.mapSpan σ).mapSpan noSpan)) s = _
    rw [Error.mapSpan_noSpan]
    rfl
  crash c := .refl _
  charge units := .refl _
  enter := .refl _
  primitive _ := .refl _

/-- A program with other source ranges runs alike. -/
theorem alike_program {σ : Span → Span} (hσ : σ {} = {}) (program : Program) (context : RunContext)
    (collaborators : Collaborators) (maxStringLength levels : Nat) :
    Alike
      (Run.program program ⟨FunctionTable.ofList program.functions, collaborators, maxStringLength⟩
        context levels)
      (Run.program (program.mapSpans σ)
        ⟨FunctionTable.ofList (program.mapSpans σ).functions, collaborators, maxStringLength⟩
        context levels) :=
  (congruence_alike σ).program_mapSpans hσ (fun hxy => hxy.inFrame) (fun {_} => .refl _)
    (fun _ _ => .refl _) (fun _ _ => .refl _) program context maxStringLength levels

end Run

/-- Ends of runs that differ in the source ranges of errors only. -/
inductive SameEnd : Except Halt Datum → Except Halt Datum → Prop
  | ok (d : Datum) : SameEnd (.ok d) (.ok d)
  | failed {e e' : Error} : e'.kind = e.kind → e'.message = e.message →
      SameEnd (.error (.failed e)) (.error (.failed e'))
  | crashed (c : Crash) : SameEnd (.error (.crashed c)) (.error (.crashed c))
  | unfinished : SameEnd (.error .unfinished) (.error .unfinished)

/-- Runs that end alike and cost the same. -/
structure Outcome.Same (outcome outcome' : Outcome) : Prop where
  result : SameEnd outcome.result outcome'.result
  used : outcome'.used = outcome.used
  entries : outcome'.entries = outcome.entries

/-- Results that are alike have the same outcome. -/
theorem Outcome.same_ofResult {r r' : EStateM.Result Halt State Datum}
    (h : Run.eraseResult r' = Run.eraseResult r) :
    Outcome.Same (Outcome.ofResult r) (Outcome.ofResult r') := by
  rcases Run.cases_of_eraseResult h with ⟨d, s, rfl, rfl⟩ | ⟨halt, halt', s, rfl, rfl, hhalt⟩
  · exact ⟨.ok d, rfl, rfl⟩
  · refine ⟨?_, rfl, rfl⟩
    cases halt with
    -- errors that are alike have the same kind and message
    | failed e =>
      cases halt' with
      | failed e' =>
        obtain ⟨hkind, hmessage⟩ := Error.kind_message_of_mapSpan (Halt.failed.inj hhalt)
        exact .failed hkind hmessage
      | crashed _ | unfinished => cases hhalt
    | crashed c =>
      cases halt' with
      | crashed c' =>
        obtain rfl : c' = c := Halt.crashed.inj hhalt
        exact .crashed c'
      | failed _ | unfinished => cases hhalt
    | unfinished =>
      cases halt' with
      | failed _ | crashed _ => cases hhalt
      | unfinished => exact .unfinished

/-- Programs that are the same but for source ranges run alike, whatever they are given. -/
theorem Program.run_same {program program' : Program} (h : program'.eraseSpans = program.eraseSpans)
    (context : RunContext) (limits : Limits) (collaborators : Collaborators) :
    (program.run context limits collaborators).Same (program'.run context limits collaborators) := by
  have herase := fun program : Program =>
    Run.alike_program (σ := noSpan) rfl program context collaborators limits.maxStringLength
      (limits.stepBudget + 1)
  -- both runs are alike to the one without source ranges
  have halike := herase program'
  rw [show program'.mapSpans noSpan = program.mapSpans noSpan from h] at halike
  exact Outcome.same_ofResult ((herase program).trans halike.symm _)

/-! ## What token lists mean -/

/-- Outcomes of reading that differ in source ranges only: programs with the same nodes, of which any
two runs that are given the same end alike and cost the same, or errors of one kind with one message.
-/
inductive SameMeaning : Except Error Program → Except Error Program → Prop
  | program {program program' : Program} :
      program'.nodeTable.map (NumberedNode.mapSpan noSpan) =
        program.nodeTable.map (NumberedNode.mapSpan noSpan) →
      (∀ context limits collaborators, (program.run context limits collaborators).Same
        (program'.run context limits collaborators)) →
      SameMeaning (.ok program) (.ok program')
  | error {e e' : Error} : e'.kind = e.kind → e'.message = e.message →
      SameMeaning (.error e) (.error e')

/-- Token lists mean the same if they differ only in where their tokens were written. -/
theorem Program.sameMeaning_ofTokens? {lexemes lexemes' : List Lexeme}
    (h : lexemes'.map Lexeme.token = lexemes.map Lexeme.token) :
    SameMeaning (Program.ofTokens? lexemes) (Program.ofTokens? lexemes') := by
  have herase := Program.eraseParsed_congr h
  cases hparsed : Program.ofTokens? lexemes with
  | ok program =>
    cases hparsed' : Program.ofTokens? lexemes' with
    | ok program' =>
      rw [hparsed, hparsed', eraseParsed, eraseParsed, Except.ok.injEq] at herase
      -- the trees are the same without ranges, and so are tables and runs
      refine .program ?_ (Program.run_same herase)
      rw [← Program.nodeTable_mapSpans, ← Program.nodeTable_mapSpans]
      exact congrArg Program.nodeTable herase
    | error e' =>
      rw [hparsed, hparsed'] at herase
      cases herase
  | error e =>
    cases hparsed' : Program.ofTokens? lexemes' with
    | ok program' =>
      rw [hparsed, hparsed'] at herase
      cases herase
    | error e' =>
      rw [hparsed, hparsed', eraseParsed, eraseParsed, Except.error.injEq] at herase
      obtain ⟨hkind, hmessage⟩ := Error.kind_message_of_mapSpan herase
      exact .error hkind hmessage

end MeteredScript
