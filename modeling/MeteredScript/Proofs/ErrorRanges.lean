import MeteredScript.Proofs.NodeRanges
import MeteredScript.Proofs.RunSpans
import MeteredScript.Proofs.Safety

namespace MeteredScript

/-! # Ranges of errors

Errors that have a range point into the source text: the range lies in the text, and its ends are
between characters. The lexer fails behind characters that it has read, and names characters that it
could not read. All later errors are about texts that were read, so that these are in ASCII, and have
ranges of tokens or of nodes. For runs this is shown by replacing every range that does not point into
the text (`Span.turnInto`): the nodes of a program that was read stay as they are, so that it runs as
before, and after the replacement a run has no other ranges to fail with.
-/

/-! ## Places in a text -/

/-- The range lies in the text, and both its ends are between characters. -/
structure Span.PointsInto (span : Span) (source : String) : Prop where
  start_le_stop : span.start ≤ span.stop
  stop_le : span.stop ≤ source.utf8ByteSize
  start_isValid : String.Pos.Raw.IsValid source ⟨span.start⟩
  stop_isValid : String.Pos.Raw.IsValid source ⟨span.stop⟩

/-- The size of a text is the sum of the bytes of its characters. -/
theorem utf8ByteSize_ofList (cs : List Char) : (String.ofList cs).utf8ByteSize = byteLength cs := by
  induction cs with
  | nil => rfl
  | cons c cs ih =>
    rw [String.ofList_cons, String.utf8ByteSize_append, String.utf8ByteSize_singleton, ih,
      byteLength_cons]

theorem utf8ByteSize_eq (source : String) : source.utf8ByteSize = byteLength source.toList := by
  rw [← utf8ByteSize_ofList, String.ofList_toList]

variable {e : Error} {front cs : List Char} {lexemes : List Lexeme} {span : Span} {source : String}

/-- The place behind some characters of the text. -/
theorem isValid_byteLength {behind : List Char} (h : source.toList = front ++ behind) :
    String.Pos.Raw.IsValid source ⟨byteLength front⟩ := by
  apply String.Pos.Raw.isValid_iff_exists_append.mpr
  refine ⟨String.ofList front, String.ofList behind, ?_, ?_⟩
  · rw [← String.ofList_append, ← h, String.ofList_toList]
  · rw [← utf8ByteSize_ofList]
    rfl

/-- The range of some characters of the text. -/
theorem Span.pointsInto_of_append {word behind : List Char}
    (h : source.toList = front ++ (word ++ behind)) :
    Span.PointsInto ⟨byteLength front, byteLength front + byteLength word⟩ source := by
  have hsize : source.utf8ByteSize = byteLength front + (byteLength word + byteLength behind) := by
    rw [utf8ByteSize_eq, h, byteLength_append, byteLength_append]
  have hstop := isValid_byteLength (h.trans (List.append_assoc front word behind).symm)
  rw [byteLength_append] at hstop
  refine ⟨Nat.le_add_right _ _, ?_, isValid_byteLength h, hstop⟩
  dsimp only
  omega

/-- The empty range at the start points into every text. -/
theorem Span.pointsInto_default (source : String) : Span.PointsInto {} source := by
  have hfront : source.toList = [] ++ ([] ++ source.toList) := rfl
  exact Span.pointsInto_of_append hfront

/-! ### Texts in ASCII -/

theorem utf8Size_of_isAscii {c : Char} (h : isAscii c = true) : c.utf8Size = 1 := by
  have hlt : c.toNat < 128 := of_decide_eq_true h
  exact Char.utf8Size_eq_one_iff.mpr (Nat.le_of_lt_succ hlt)

theorem byteLength_of_ascii (h : ∀ c ∈ cs, isAscii c = true) : byteLength cs = cs.length := by
  induction cs with
  | nil => rfl
  | cons c cs ih =>
    obtain ⟨hc, hcs⟩ := List.forall_mem_cons.mp h
    rw [byteLength_cons, utf8Size_of_isAscii hc, ih hcs, List.length_cons, Nat.add_comm]

theorem byteLength_take {n : Nat} (h : ∀ c ∈ cs.take n, isAscii c = true) (hn : n ≤ cs.length) :
    byteLength (cs.take n) = n := by
  rw [byteLength_of_ascii h, List.length_take, Nat.min_eq_left hn]

/-- In a text in ASCII, all ranges that lie in it point into it. -/
theorem Span.pointsInto_of_ascii (hascii : ∀ c ∈ source.toList, isAscii c = true)
    (hle : span.start ≤ span.stop) (hstop : span.stop ≤ byteLength source.toList) :
    span.PointsInto source := by
  have hvalid : ∀ n, n ≤ byteLength source.toList → String.Pos.Raw.IsValid source ⟨n⟩ := by
    intro n hn
    rw [byteLength_of_ascii hascii] at hn
    have htake := byteLength_take (fun c hc => hascii c (List.mem_of_mem_take hc)) hn
    rw [← htake]
    exact isValid_byteLength (List.take_append_drop n source.toList).symm
  refine ⟨hle, ?_, hvalid _ (Nat.le_trans hle hstop), hvalid _ hstop⟩
  rwa [utf8ByteSize_eq]

/-! ## The lexer -/

namespace Scan

variable {f : LexFault} {extent : Nat}

/-- What cannot be read as a number is in ASCII, too. -/
theorem byteLength_of_number {cs : List Char} (h : number cs = .fault f extent) :
    byteLength (cs.take extent) = extent := by
  unfold number at h
  dsimp only at h
  split at h
  · cases h
  · cases h
    refine byteLength_take (fun c hc => ?_) (NumberForm.longest_le cs)
    rcases Nat.eq_zero_or_pos (NumberForm.longest cs).2 with hzero | hpos
    · rw [hzero] at hc
      cases hc
    · rw [← NumberForm.length_longest hpos] at hc
      exact NumberForm.countsAscii_length _ cs c hc

/-- A fault behind a slash extends over characters that are there. -/
theorem exists_of_slash {previous : Option Token} {rest : List Char}
    (h : slash previous rest = .fault f extent) :
    ∃ word behind, '/' :: rest = word ++ behind ∧ byteLength word = extent := by
  unfold slash at h
  split at h
  · rename_i body
    unfold lineComment at h
    dsimp only at h
    split at h <;> cases h
    exact ⟨['/', '/'], body, rfl, rfl⟩
  · rename_i body
    unfold blockComment at h
    split at h
    · cases h
      exact ⟨['/', '*'], body, rfl, rfl⟩
    · split at h <;> cases h
      exact ⟨['/', '*'], body, rfl, rfl⟩
  · split at h
    -- a regular expression that is not closed extends to the end
    · unfold regex at h
      split at h <;> cases h
      exact ⟨'/' :: rest, [], (List.append_nil _).symm, byteLength_cons '/' rest⟩
    · split at h <;> cases h

/-- A failure is about characters that stand ahead. -/
theorem exists_of_fault {previous : Option Token} {c : Char} {rest : List Char}
    (h : next previous c rest = .fault f extent) :
    ∃ word behind, c :: rest = word ++ behind ∧ byteLength word = extent := by
  unfold next at h
  by_cases hlayout : isLayout c = true
  · rw [if_pos hlayout] at h
    cases h
  rw [if_neg hlayout] at h
  by_cases hslash : c = '/'
  · subst hslash
    rw [if_pos rfl] at h
    exact exists_of_slash h
  rw [if_neg hslash] at h
  by_cases hquote : c = '\'' ∨ c = '"'
  · rw [if_pos hquote] at h
    unfold string at h
    split at h
    · cases h
    · cases h
      refine ⟨[c], rest, rfl, ?_⟩
      rcases hquote with rfl | rfl <;> rfl
  rw [if_neg hquote] at h
  split at h
  · exact ⟨_, _, (List.take_append_drop extent (c :: rest)).symm, byteLength_of_number h⟩
  · split at h
    · unfold word at h
      dsimp only at h
      split at h <;> cases h
    · split at h
      · cases h
      · cases h
        -- a character that no token starts with, and it need not be in ASCII
        exact ⟨[c], rest, rfl, Nat.zero_add _⟩

end Scan

/-- The lexer fails behind what it has read, and is about characters there. -/
theorem exists_of_tokenizeFrom_error {read : List Lexeme} {position : Position}
    (h : tokenizeFrom read position cs = .error e) (front : List Char)
    (hfront : byteLength front = position.offset) :
    ∃ f before word behind, front ++ cs = before ++ (word ++ behind) ∧
      e = .lex f ⟨byteLength before, byteLength before + byteLength word⟩ := by
  -- a step moves what it reads from `cs` to the end of `front`; their sum stays the whole text
  fun_induction tokenizeFrom read position cs generalizing front with
  | case1 read position => cases h
  | case2 read position c rest f extent hnext =>
    cases h
    obtain ⟨word, behind, hrest, rfl⟩ := Scan.exists_of_fault hnext
    exact ⟨f, front, word, behind, by rw [hrest], by rw [hfront]⟩
  | case3 read position c rest extra hnext ahead ih
  | case4 read position c rest t extra hnext ahead lexeme ih =>
    have hrest : ahead.2 = rest.drop extra := Position.advance_snd _ _ _
    have hoffset := Position.offset_behind hfront c extra rest
    obtain ⟨f, before, word, behind, hsplit, he⟩ := ih h (front ++ c :: rest.take extra)
      ((byteLength_append _ _).trans hoffset.symm)
    rw [hrest, List.append_assoc, List.cons_append, List.take_append_drop] at hsplit
    exact ⟨f, before, word, behind, hsplit, he⟩

theorem pointsInto_of_tokenize (h : tokenize source = .error e) (hspan : e.span? = some span) :
    span.PointsInto source := by
  obtain ⟨f, before, word, behind, hsource, rfl⟩ := exists_of_tokenizeFrom_error h [] rfl
  rw [List.nil_append] at hsource
  rcases Option.some.inj hspan with rfl
  exact Span.pointsInto_of_append hsource

/-! ## Ranges of tokens -/

/-- The last token ends within the text. -/
theorem Parts.lastStop_le (h : Parts front cs lexemes) :
    lastStop (byteLength front) lexemes ≤ byteLength (front ++ cs) := by
  induction h with
  | @last front gap _ =>
    rw [lastStop, byteLength_append]
    exact Nat.le_add_right _ _
  | @word front gap word rest c lexeme lexemes _ _ hstands _ ih =>
    rw [lastStop, hstands.stop_eq, append_word]
    exact ih

namespace InOrder

variable {lexemes : List Lexeme} (h : InOrder lexemes)
include h

/-- The token ahead, and behind the last token the end of it. -/
theorem span_past_le (i : Nat) :
    (Cursor.past lexemes i).span.start ≤ (Cursor.past lexemes i).span.stop ∧
      (Cursor.past lexemes i).span.stop ≤ (Cursor.past lexemes lexemes.length).reached := by
  rcases Nat.lt_or_ge i lexemes.length with hlt | hge
  · rw [Cursor.span_past hlt]
    refine ⟨Nat.le_of_lt (h.start_lt_stop _ (List.getElem_mem hlt)), ?_⟩
    rw [← Cursor.reached_past_succ hlt]
    exact h.reached_le hlt (Nat.le_refl _)
  · rw [Cursor.past_of_length_le hge, Cursor.past_of_length_le (Nat.le_refl _)]
    exact ⟨Nat.le_refl _, Nat.le_refl _⟩

/-- A range of tokens lies in front of the end of the last token, whatever its places are. -/
theorem extent_le (i j : Nat) :
    (extent lexemes i j).start ≤ (extent lexemes i j).stop ∧
      (extent lexemes i j).stop ≤ (Cursor.past lexemes lexemes.length).reached := by
  obtain ⟨hstart, hstop⟩ := h.span_past_le i
  have hreached : (Cursor.past lexemes j).reached ≤
      (Cursor.past lexemes lexemes.length).reached := by
    rcases Nat.lt_or_ge j lexemes.length with hlt | hge
    · exact h.reached_le (Nat.le_of_lt hlt) (Nat.le_refl _)
    · apply Nat.le_of_eq
      rw [Cursor.past_of_length_le hge, Cursor.past_of_length_le (Nat.le_refl _)]
  exact ⟨Nat.le_trans hstart (Nat.le_max_right _ _), Nat.max_le.mpr ⟨hreached, hstop⟩⟩

end InOrder

/-- A text with its tokens: it is in ASCII, and they are in order and end in it. -/
structure TokensOf (source : String) (lexemes : List Lexeme) : Prop where
  inOrder : InOrder lexemes
  ascii : ∀ c ∈ source.toList, isAscii c = true
  reached_le : (Cursor.past lexemes lexemes.length).reached ≤ byteLength source.toList

/-- Tokens that were read have ranges that point into the text. -/
theorem tokensOf_of_tokenize (h : tokenize source = .ok lexemes) : TokensOf source lexemes := by
  obtain ⟨_, rfl, hparts⟩ := parts_of_tokenizeFrom h [] rfl rfl
  refine ⟨hparts.inOrder, hparts.ascii, ?_⟩
  rw [Cursor.past_of_length_le (Nat.le_refl _)]
  exact hparts.lastStop_le

namespace TokensOf

variable {source : String} {lexemes : List Lexeme} (h : TokensOf source lexemes)
include h

theorem pointsInto_extent (i j : Nat) : (extent lexemes i j).PointsInto source := by
  obtain ⟨hle, hstop⟩ := h.inOrder.extent_le i j
  exact Span.pointsInto_of_ascii h.ascii hle (Nat.le_trans hstop h.reached_le)

theorem pointsInto_of_blames {e : Error} (hblames : Parse.Blames lexemes e) {span : Span}
    (hspan : e.span? = some span) : span.PointsInto source := by
  obtain ⟨i, j, rfl⟩ := hblames span hspan
  exact h.pointsInto_extent i j

end TokensOf

/-! ## Runs -/

theorem Error.span?_mapSpan (σ : Span → Span) (e : Error) : (e.mapSpan σ).span? = e.span?.map σ := by
  cases e <;> rfl

/-- A range that points into the text is kept, and any other is replaced. -/
noncomputable def Span.turnInto (source : String) (span : Span) : Span :=
  open Classical in if span.PointsInto source then span else {}

namespace Span

variable {source : String}

theorem turnInto_of_pointsInto {span : Span} (h : span.PointsInto source) :
    span.turnInto source = span :=
  if_pos h

/-- After the replacement every range points into the text. -/
theorem pointsInto_turnInto (source : String) (span : Span) :
    (span.turnInto source).PointsInto source := by
  unfold turnInto
  split
  · assumption
  · exact Span.pointsInto_default source

end Span

theorem Laid.map_mapSpans {σ : Span → Span}
    (hσ : ∀ a b, σ (extent lexemes a b) = extent lexemes a b) {i j : Nat} {outlines : List Outline}
    {leaves : List Leaf} (h : Laid lexemes i j outlines leaves) :
    outlines.map (Outline.mapSpans σ) = outlines := by
  induction h with
  | nil => rfl
  | skip _ _ _ ih | leaf _ _ _ _ ih => exact ih
  | node _ _ _ hchildren hrest =>
    rw [List.map_cons, Outline.mapSpans_node, hσ, hchildren, hrest]

/-- The ranges of a program that was read point into its text, so that its nodes stay as they are. -/
theorem TokensOf.nodeTable_turnInto {program : Program} (h : TokensOf source lexemes)
    (hread : Program.ofTokens? lexemes = .ok program) :
    (program.mapSpans (Span.turnInto source)).nodeTable = program.nodeTable := by
  obtain ⟨hlaid, hspan⟩ := Program.laid_of_ofTokens? hread
  have hextent := fun a b => Span.turnInto_of_pointsInto (h.pointsInto_extent a b)
  have hroot : program.span.turnInto source = program.span := by
    rw [hspan]
    exact Span.turnInto_of_pointsInto (Span.pointsInto_of_ascii h.ascii (Nat.zero_le _) h.reached_le)
  apply congrArg NodeTable.ofOutline
  rw [Program.outline_mapSpans, Program.outline, Outline.mapSpans_node, hroot,
    hlaid.map_mapSpans hextent]

/-- Without collaborators, the errors of a run point into the text that its program was read from. -/
theorem TokensOf.pointsInto_of_run {program : Program} (h : TokensOf source lexemes)
    (hread : Program.ofTokens? lexemes = .ok program) {context : RunContext} {limits : Limits}
    (he : (program.run context limits {}).result = .error (.failed e))
    (hspan : e.span? = some span) : span.PointsInto source := by
  let P : Error → Prop := fun e => ∀ span, e.span? = some span → span.PointsInto source
  have hP : ∀ e : Error, e.isRuntime = true → P (e.mapSpan (Span.turnInto source)) := by
    intro e _ span hspan
    rw [e.span?_mapSpan] at hspan
    obtain ⟨old, _, rfl⟩ := Option.map_eq_some_iff.mp hspan
    exact old.pointsInto_turnInto source
  have hdefault : Span.turnInto source {} = {} :=
    Span.turnInto_of_pointsInto (Span.pointsInto_default source)
  -- this is about the program after the replacement, which has the same nodes and so runs alike
  have hrun := (Run.congruence_failsOnly hP).program_mapSpans hdefault Run.FailsOnly.inFrame
    Run.FailsOnly.unfinished (fun name v => .memoryStep (Run.isMemoryStep_defineGlobal name v))
    (fun e he => absurd he (Collaborators.not_mayAnswer e)) program context limits.maxStringLength
    (limits.stepBudget + 1)
  rw [← Program.run_eq_of_nodeTable hread (h.nodeTable_turnInto hread)] at he
  obtain ⟨t, ht⟩ := Outcome.eq_error_of_result he
  exact hrun _ e t ht span hspan

/-! ## Nodes and errors -/

/-- The ranges of nodes nest, and errors point into the source. Every node but the program has a range
that is not empty, starts with a token and stops with one, lies in the range of the node above it, and
is in front of the ranges of its later siblings. Errors that have a range, whether they come from the
lexer, from the reader or from a run without collaborators, have one that lies in the text and cuts no
character. -/
theorem ranges_nest_and_point_into (source : String) :
    (∀ lexemes program, tokenize source = .ok lexemes → Program.ofTokens? lexemes = .ok program →
      program.nodeTable.Nests lexemes) ∧
    (∀ e span, tokenize source = .error e → e.span? = some span → span.PointsInto source) ∧
    (∀ lexemes e span, tokenize source = .ok lexemes → Program.ofTokens? lexemes = .error e →
      e.span? = some span → span.PointsInto source) ∧
    ∀ lexemes program context limits e span, tokenize source = .ok lexemes →
      Program.ofTokens? lexemes = .ok program →
      (program.run context limits {}).result = .error (.failed e) →
      e.span? = some span → span.PointsInto source := by
  refine ⟨?_, ?_, ?_, ?_⟩
  · intro lexemes program hlexemes hprogram
    exact Program.nests_nodeTable (tokensOf_of_tokenize hlexemes).inOrder hprogram
  · intro e span he hspan
    exact pointsInto_of_tokenize he hspan
  · intro lexemes e span hlexemes he hspan
    exact (tokensOf_of_tokenize hlexemes).pointsInto_of_blames (Program.blames_of_ofTokens? he) hspan
  · intro lexemes program context limits e span hlexemes hprogram he hspan
    exact (tokensOf_of_tokenize hlexemes).pointsInto_of_run hprogram he hspan

/-- The range that the error of a run points at. -/
def Outcome.errorSpan? (outcome : Outcome) : Option Span :=
  match outcome.result with
  | .error (.failed e) => e.span?
  | .error (.crashed _) | .error .unfinished => none
  | .ok _ => none

theorem Outcome.exists_of_errorSpan? {outcome : Outcome} (h : outcome.errorSpan? = some span) :
    ∃ e, outcome.result = .error (.failed e) ∧ e.span? = some span := by
  unfold Outcome.errorSpan? at h
  split at h
  · rename_i e he
    exact ⟨e, he, h⟩
  all_goals cases h

/-- A function that asks for an element behind the end of an array. -/
def indexBeyond : String := "function f() { return [1][2]; }"

/-- The error points at `[1][2]`. -/
theorem ranges_nest_and_point_into_indexBeyond :
    ∃ lexemes program, tokenize indexBeyond = .ok lexemes ∧
      Program.ofTokens? lexemes = .ok program ∧ program.nodeTable.size = 8 ∧
      program.nodeTable.Nests lexemes ∧
      (program.run {} ⟨100, 3⟩ {}).errorSpan? = some ⟨22, 28⟩ ∧
      Span.PointsInto ⟨22, 28⟩ indexBeyond := by
  obtain ⟨hnests, _, _, hrun⟩ := ranges_nest_and_point_into indexBeyond
  have hlexemes : tokenize indexBeyond = .ok ((tokenize indexBeyond).toOption.getD []) :=
    eq_ok_of_toOption (by decide +kernel)
  have hsize : (Program.ofTokens? ((tokenize indexBeyond).toOption.getD [])).toOption.map
      (fun program => program.nodeTable.size) = some 8 := by decide +kernel
  have hspan : (Program.ofTokens? ((tokenize indexBeyond).toOption.getD [])).toOption.bind
      (fun program => (program.run {} ⟨100, 3⟩ {}).errorSpan?) = some ⟨22, 28⟩ := by decide +kernel
  obtain ⟨program, hprogram, hsize⟩ := Option.map_eq_some_iff.mp hsize
  rw [hprogram] at hspan
  have hparsed := eq_ok_of_toOption hprogram
  obtain ⟨e, he, hpoints⟩ := Outcome.exists_of_errorSpan? hspan
  exact ⟨_, program, hlexemes, hparsed, hsize, hnests _ _ hlexemes hparsed, hspan,
    hrun _ _ _ _ e _ hlexemes hparsed he hpoints⟩

end MeteredScript
