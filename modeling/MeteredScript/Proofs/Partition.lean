import MeteredScript.Proofs.Layout
import MeteredScript.Proofs.Spelling

namespace MeteredScript

/-! # The parts of a source text

A source text that is read is divided up: there is the text that each token is read from, and
between these are gaps of white space and comments. `Parts` follows the lexer and says so of the text
that is still to be read, behind the text that was read already, which gives the offsets and the lines.
Main statement: the tokens of a source text are a `Partition` of it.
-/

open Text

/-! ## Comments and white space -/

/-- What the lexer passes over at once, and what it stops in front of. A comment to the end of a
line stops before that end. -/
inductive Passed : List Char → List Char → Prop
  | layout {c : Char} (rest : List Char) : isLayout c = true → Passed [c] rest
  | line {body rest : List Char} : (∀ c ∈ body, isAscii c = true ∧ c ≠ '\n') →
      (rest = [] ∨ ∃ more, rest = '\n' :: more) → Passed ('/' :: '/' :: body) rest
  | block {body : List Char} (rest : List Char) : (∀ c ∈ body, isAscii c = true) →
      ¬['*', '/'] <:+: body ++ ['*'] → Passed ('/' :: '*' :: (body ++ ['*', '/'])) rest

/-- A gap at the end of a text. It may end within a comment to the end of the line. -/
inductive LastGap : List Char → Prop
  | gap {gap : List Char} : Gap gap → LastGap gap
  | comment {gap body : List Char} : Gap gap → (∀ c ∈ body, isAscii c = true ∧ c ≠ '\n') →
      LastGap (gap ++ '/' :: '/' :: body)

namespace Scan

/-- A block comment ends at the first star with a slash behind it. -/
theorem exists_of_blockLength? {count n : Nat} {cs : List Char}
    (h : blockLength? count cs = some n) :
    ∃ body tail, cs = body ++ '*' :: '/' :: tail ∧ n = count + body.length ∧
      ¬['*', '/'] <:+: body ++ ['*'] := by
  fun_induction blockLength? count cs with
  | case1 count tail =>
    rcases Option.some.inj h with rfl
    refine ⟨[], tail, rfl, rfl, ?_⟩
    decide
  | case2 count c rest hopen ih =>
    obtain ⟨body, tail, rfl, rfl, hbody⟩ := ih h
    refine ⟨c :: body, tail, rfl, ?_, ?_⟩
    · simp only [List.length_cons]
      omega
    · rw [List.cons_append, List.infix_cons_iff]
      rintro (hfront | hbehind)
      · -- the comment would have been closed here
        obtain ⟨rfl, hslash⟩ := List.cons_prefix_cons.mp hfront
        cases body with
        | nil => simp at hslash
        | cons d body =>
          obtain ⟨rfl, _⟩ := List.cons_prefix_cons.mp hslash
          exact hopen _ rfl rfl
      · exact hbody hbehind
  | case3 count => simp at h

variable {rest : List Char} {extra : Nat}

/-- A line comment is passed up to the end of its line, or of the text. -/
theorem passed_lineComment (h : lineComment rest = .skip extra) :
    Passed ('/' :: ('/' :: rest).take extra) (('/' :: rest).drop extra) := by
  unfold lineComment at h
  dsimp only at h
  split at h
  · rename_i hascii
    rw [skip.injEq, Nat.add_comm] at h
    subst h
    have htake : rest.take (rest.takeWhile (· ≠ '\n')).length = rest.takeWhile (· ≠ '\n') :=
      (List.prefix_iff_eq_take.mp (List.takeWhile_prefix _)).symm
    have hdrop : rest.drop (rest.takeWhile (· ≠ '\n')).length = rest.dropWhile (· ≠ '\n') := by
      have hsplit := List.takeWhile_append_dropWhile (p := (· ≠ '\n')) (l := rest)
      rw [← htake] at hsplit
      exact List.append_cancel_left ((List.take_append_drop _ _).trans hsplit.symm)
    rw [List.take_succ_cons, List.drop_succ_cons, htake, hdrop]
    refine .line (fun c hc => ?_) ?_
    · have hline := List.all_eq_true.mp List.all_takeWhile c hc
      exact ⟨List.all_eq_true.mp hascii c hc, of_decide_eq_true hline⟩
    · -- what stopped the comment is the end of the line
      cases hbehind : rest.dropWhile (· ≠ '\n') with
      | nil => exact .inl rfl
      | cons c more =>
        have hc : decide (c ≠ '\n') = false := by
          have hhead := List.head?_dropWhile_not (· ≠ '\n') rest
          rwa [hbehind] at hhead
        exact .inr ⟨more, by simpa using hc⟩
  · simp at h

theorem passed_blockComment (h : blockComment rest = .skip extra) :
    Passed ('/' :: ('*' :: rest).take extra) (('*' :: rest).drop extra) := by
  unfold blockComment at h
  split at h
  · simp at h
  · rename_i length hlength
    obtain ⟨body, tail, rfl, hbody, hopen⟩ := exists_of_blockLength? hlength
    rw [Nat.zero_add] at hbody
    subst hbody
    rw [List.take_left] at h
    split at h
    -- A comment with other than ASCII characters is not skipped.
    · rename_i hascii
      rw [skip.injEq] at h
      subst h
      have hsplit : body ++ '*' :: '/' :: tail = (body ++ ['*', '/']) ++ tail := by simp
      have hlength : (body ++ ['*', '/']).length = body.length + 2 := by simp
      rw [Nat.add_assoc, Nat.add_comm 1, List.take_succ_cons, List.drop_succ_cons, hsplit,
        List.take_left' hlength, List.drop_left' hlength]
      exact .block tail (List.all_eq_true.mp hascii) hopen
    · simp at h

/-- Only white space and comments are passed over. -/
theorem passed_of_next {previous : Option Token} {c : Char}
    (h : next previous c rest = .skip extra) : Passed (c :: rest.take extra) (rest.drop extra) := by
  unfold next at h
  by_cases hlayout : isLayout c = true
  · rw [if_pos hlayout, skip.injEq] at h
    subst h
    exact .layout rest hlayout
  rw [if_neg hlayout] at h
  by_cases hslash : c = '/'
  · subst hslash
    rw [if_pos rfl] at h
    unfold slash at h
    split at h
    · exact passed_lineComment h
    · exact passed_blockComment h
    · unfold regex at h
      split at h
      · split at h <;> simp at h
      · split at h <;> simp at h
  -- everything else is a token or a fault
  · unfold string number word at h
    simp only [hslash, if_false] at h
    split at h
    · split at h <;> simp at h
    · split at h
      · split at h <;> simp at h
      · split at h <;> split at h <;> simp at h

end Scan

/-! ## Gaps -/

theorem isAscii_of_isLayout {c : Char} (hc : isLayout c = true) : isAscii c = true := by
  unfold isLayout at hc
  simp only [Bool.or_eq_true, decide_eq_true_eq] at hc
  rcases hc with ((((rfl | rfl) | rfl) | rfl) | rfl) | rfl <;> decide

namespace Gap

/-- White space and comments are in ASCII. -/
theorem ascii {gap : List Char} (h : Gap gap) : ∀ c ∈ gap, isAscii c = true := by
  induction h with
  | nil => simp
  | layout hc _ ih => exact List.forall_mem_cons.mpr ⟨isAscii_of_isLayout hc, ih⟩
  | line hbody _ ih =>
    simp only [List.mem_cons, List.mem_append]
    rintro c (rfl | rfl | hc | rfl | hc)
    · decide
    · decide
    · exact (hbody c hc).1
    · decide
    · exact ih c hc
  | block hbody _ _ ih =>
    simp only [List.mem_cons, List.mem_append]
    rintro c (rfl | rfl | hc | rfl | rfl | hc)
    · decide
    · decide
    · exact hbody c hc
    · decide
    · decide
    · exact ih c hc

theorem of_newline {rest : List Char} (h : Gap ('\n' :: rest)) : Gap rest := by
  cases h with
  | layout _ hrest => exact hrest

end Gap

namespace Passed

/-- What was passed over, with the gap behind it. A comment does not reach over the line break that
this gap then starts with. -/
theorem append_gap {piece gap tail : List Char} {c : Char} (h : Passed piece (gap ++ c :: tail))
    (hgap : Gap gap) (hc : isLayout c = false) : Gap (piece ++ gap) := by
  cases h with
  | layout _ hlayout => exact .layout hlayout hgap
  | block _ hbody hopen =>
    have hblock := Gap.block hbody hopen hgap
    simpa using hblock
  | line hbody hstop =>
    rcases hstop with hend | ⟨more, hbreak⟩
    · simp at hend
    cases gap with
    | nil =>
      -- a line break is white space, and no word starts with it
      obtain ⟨rfl, _⟩ := List.cons.inj hbreak
      exact absurd hc (by decide)
    | cons d gap =>
      obtain ⟨rfl, _⟩ := List.cons.inj hbreak
      exact .line hbody hgap.of_newline

/-- A piece in front of the last gap belongs to it. -/
theorem append_lastGap {piece rest : List Char} (h : Passed piece rest) (hrest : LastGap rest) :
    LastGap (piece ++ rest) := by
  cases hrest with
  | gap hgap =>
    cases h with
    | layout _ hlayout => exact .gap (.layout hlayout hgap)
    | block _ hbody hopen =>
      have hblock := Gap.block hbody hopen hgap
      exact .gap (by simpa using hblock)
    | line hbody hstop =>
      rcases hstop with rfl | ⟨more, rfl⟩
      · rw [List.append_nil]
        exact .comment .nil hbody
      · exact .gap (.line hbody hgap.of_newline)
  | @comment gap body hgap hbody =>
    rw [← List.append_assoc]
    exact .comment (h.append_gap hgap (by decide)) hbody

end Passed

namespace LastGap

theorem ascii {gap : List Char} (h : LastGap gap) : ∀ c ∈ gap, isAscii c = true := by
  cases h with
  | gap hgap => exact hgap.ascii
  | comment hgap hbody =>
    simp only [List.mem_append, List.mem_cons]
    rintro c (hc | rfl | rfl | hc)
    · exact hgap.ascii c hc
    · decide
    · decide
    · exact (hbody c hc).1

end LastGap

/-! ## Places of tokens -/

/-- The number of line breaks in a text. -/
def lineBreaks (cs : List Char) : Nat := cs.countP (· = '\n')

theorem lineBreaks_append (cs cs' : List Char) :
    lineBreaks (cs ++ cs') = lineBreaks cs + lineBreaks cs' :=
  List.countP_append

/-- A line break starts a new line, nothing else does. -/
theorem Position.after_line (p : Position) (c : Char) :
    (p.after c).line = p.line + lineBreaks [c] := by
  unfold Position.after lineBreaks
  by_cases hc : c = '\n' <;> simp [hc]

theorem Position.advance_line (p : Position) (n : Nat) (cs : List Char) :
    (p.advance n cs).1.line = p.line + lineBreaks (cs.take n) := by
  induction n generalizing p cs with
  | zero => rfl
  | succ n ih =>
    cases cs with
    | nil => rfl
    | cons c cs =>
      rw [Position.advance, ih, Position.after_line, Nat.add_assoc, ← lineBreaks_append]
      rfl

/-- The line that a word ends in, behind the text in `front`. -/
theorem Position.line_behind {p : Position} {front : List Char}
    (hline : 1 + lineBreaks front = p.line) (c : Char) (extra : Nat) (rest : List Char) :
    ((p.after c).advance extra rest).1.line =
      1 + lineBreaks (front ++ c :: rest.take extra) := by
  rw [Position.advance_line, Position.after_line, ← hline, Nat.add_assoc, Nat.add_assoc,
    ← lineBreaks_append, ← lineBreaks_append, List.singleton_append]

/-- A token that is read from `word`, behind the text in `front`. -/
structure Lexeme.StandsAt (lexeme : Lexeme) (front word : List Char) : Prop where
  span : lexeme.span = ⟨byteLength front, byteLength front + byteLength word⟩
  line : lexeme.line = 1 + lineBreaks front
  written : lexeme.token.WrittenAs word

/-- The tokens of a text that stands behind `front`, divided into gaps and words. -/
inductive Parts : List Char → List Char → List Lexeme → Prop
  | last (front : List Char) {gap : List Char} : LastGap gap → Parts front gap []
  | word {front gap word rest : List Char} {c : Char} {lexeme : Lexeme} {lexemes : List Lexeme} :
      Gap gap → isLayout c = false → lexeme.StandsAt (front ++ gap) (c :: word) →
      Parts (front ++ gap ++ c :: word) rest lexemes →
      Parts front (gap ++ c :: (word ++ rest)) (lexeme :: lexemes)

theorem Parts.passed {front piece rest : List Char} {lexemes : List Lexeme}
    (hpiece : Passed piece rest) (h : Parts (front ++ piece) rest lexemes) :
    Parts front (piece ++ rest) lexemes := by
  cases h with
  | last _ hgap => exact .last front (hpiece.append_lastGap hgap)
  | @word _ gap word rest c lexeme lexemes hgap hc hstands hrest =>
    rw [List.append_assoc front] at hstands hrest
    rw [← List.append_assoc]
    exact .word (hpiece.append_gap hgap hc) hc hstands hrest

/-- What the lexer still has to read is divided up into the tokens that it will read. -/
theorem parts_of_tokenizeFrom {read : List Lexeme} {position : Position} {cs : List Char}
    {lexemes : List Lexeme} (h : tokenizeFrom read position cs = .ok lexemes) (front : List Char)
    (hfront : byteLength front = position.offset) (hline : 1 + lineBreaks front = position.line) :
    ∃ behind, lexemes = read.reverse ++ behind ∧ Parts front cs behind := by
  -- a step moves what it reads from `cs` to the end of `front`
  fun_induction tokenizeFrom read position cs generalizing front with
  | case1 read position =>
    rcases Except.ok.inj h with rfl
    exact ⟨[], (List.append_nil _).symm, .last front (.gap .nil)⟩
  | case2 read position c rest f extent hnext => simp at h
  | case3 read position c rest extra hnext ahead ih =>
    have hrest : ahead.2 = rest.drop extra := Position.advance_snd _ _ _
    have hoffset := Position.offset_behind hfront c extra rest
    have hbreaks := Position.line_behind hline c extra rest
    obtain ⟨behind, hlexemes, hparts⟩ := ih h (front ++ c :: rest.take extra)
      ((byteLength_append _ _).trans hoffset.symm) hbreaks.symm
    rw [hrest] at hparts
    have hpassed := Parts.passed (Scan.passed_of_next hnext) hparts
    rw [List.cons_append, List.take_append_drop] at hpassed
    exact ⟨behind, hlexemes, hpassed⟩
  | case4 read position c rest t extra hnext ahead lexeme ih =>
    have hrest : ahead.2 = rest.drop extra := Position.advance_snd _ _ _
    have hoffset := Position.offset_behind hfront c extra rest
    have hbreaks := Position.line_behind hline c extra rest
    obtain ⟨behind, hlexemes, hparts⟩ := ih h (front ++ c :: rest.take extra)
      ((byteLength_append _ _).trans hoffset.symm) hbreaks.symm
    obtain ⟨hwritten, hc⟩ := Scan.writtenAs_of_next hnext
    have hstands : lexeme.StandsAt (front ++ []) (c :: rest.take extra) := by
      rw [List.append_nil]
      refine ⟨?_, hline.symm, hwritten⟩
      rw [← hoffset, hfront]
    rw [hrest, ← List.append_nil front] at hparts
    have hword := Parts.word .nil hc hstands hparts
    rw [List.nil_append, List.take_append_drop] at hword
    refine ⟨lexeme :: behind, ?_, hword⟩
    rw [hlexemes, List.reverse_cons, List.append_assoc, List.singleton_append]

/-! ## Ranges -/

/-- The ranges in front of the tokens, from the place `start` on. -/
def rangesBefore (start : Nat) : List Lexeme → List Span
  | [] => []
  | lexeme :: lexemes => ⟨start, lexeme.span.start⟩ :: rangesBefore lexeme.span.stop lexemes

/-- The place behind the last token. -/
def lastStop (start : Nat) : List Lexeme → Nat
  | [] => start
  | lexeme :: lexemes => lastStop lexeme.span.stop lexemes

namespace Lexeme.StandsAt

variable {lexeme : Lexeme} {front word : List Char}

theorem stop_eq (h : lexeme.StandsAt front word) :
    lexeme.span.stop = byteLength (front ++ word) := by
  rw [h.span, byteLength_append]

theorem wordIn_eq (h : lexeme.StandsAt front word) (behind : List Char) :
    lexeme.wordIn (front ++ (word ++ behind)) = word := by
  unfold Lexeme.wordIn
  rw [h.span, Span.charsIn_word]

end Lexeme.StandsAt

namespace Parts

variable {front cs : List Char} {lexemes : List Lexeme}

/-- The whole text, with the word at the end of what was read. -/
theorem append_word (front gap word rest : List Char) (c : Char) :
    front ++ (gap ++ c :: (word ++ rest)) = front ++ gap ++ c :: word ++ rest := by
  simp

theorem ascii (h : Parts front cs lexemes) : ∀ c ∈ cs, isAscii c = true := by
  induction h with
  | last _ hgap => exact hgap.ascii
  | @word front gap word rest c lexeme lexemes hgap _ hstands _ ih =>
    intro d hd
    rw [← List.cons_append, List.mem_append, List.mem_append] at hd
    rcases hd with hd | hd | hd
    · exact hgap.ascii d hd
    · exact hstands.written.ascii d hd
    · exact ih d hd

/-- Each token stands somewhere in the text. -/
theorem exists_standsAt (h : Parts front cs lexemes) :
    ∀ lexeme ∈ lexemes, ∃ before c word behind, front ++ cs = before ++ (c :: word ++ behind) ∧
      lexeme.StandsAt before (c :: word) := by
  induction h with
  | last => simp
  | @word front gap word rest c lexeme lexemes _ _ hstands _ ih =>
    rw [List.forall_mem_cons, append_word]
    refine ⟨⟨front ++ gap, c, word, rest, ?_, hstands⟩, ih⟩
    rw [List.append_assoc]

/-- Every token starts behind the text that was read before it. -/
theorem start_le (h : Parts front cs lexemes) :
    ∀ lexeme ∈ lexemes, byteLength front ≤ lexeme.span.start := by
  induction h with
  | last => simp
  | @word front gap word rest c lexeme lexemes _ _ hstands _ ih =>
    have hgap := byteLength_append front gap
    rw [List.forall_mem_cons]
    constructor
    · rw [hstands.span]
      dsimp only
      omega
    · intro later hlater
      have hstart := ih later hlater
      rw [byteLength_append] at hstart
      omega

/-- Tokens do not overlap, and are in order. -/
theorem pairwise (h : Parts front cs lexemes) :
    lexemes.Pairwise fun lexeme later => lexeme.span.stop ≤ later.span.start := by
  induction h with
  | last => exact .nil
  | word _ _ hstands hrest ih =>
    refine .cons (fun later hlater => ?_) ih
    rw [hstands.stop_eq]
    exact hrest.start_le later hlater

theorem gap_of_mem_rangesBefore (h : Parts front cs lexemes) :
    ∀ range ∈ rangesBefore (byteLength front) lexemes, Gap (range.charsIn 0 (front ++ cs)) := by
  induction h with
  | last => simp [rangesBefore]
  | @word front gap word rest c lexeme lexemes hgap _ hstands _ ih =>
    rw [rangesBefore, List.forall_mem_cons, hstands.stop_eq, hstands.span, byteLength_append]
    constructor
    · rw [Span.charsIn_word]
      exact hgap
    · rw [append_word]
      exact ih

theorem lastGap_behind (h : Parts front cs lexemes) :
    LastGap (Span.charsIn ⟨lastStop (byteLength front) lexemes, byteLength (front ++ cs)⟩ 0
      (front ++ cs)) := by
  induction h with
  | @last front gap hgap =>
    have hword := Span.charsIn_word front gap []
    rw [List.append_nil] at hword
    rw [lastStop, byteLength_append, hword]
    exact hgap
  | @word front gap word rest c lexeme lexemes _ _ hstands _ ih =>
    rw [lastStop, hstands.stop_eq, append_word]
    exact ih

end Parts

/-- A text that is divided into tokens and gaps. The tokens' ranges are in order and do not overlap,
the text in such a range is the token's spelling, and all the other text is white space and
comments. -/
structure Partition (text : List Char) (lexemes : List Lexeme) : Prop where
  ascii : ∀ c ∈ text, isAscii c = true
  start_lt_stop : ∀ lexeme ∈ lexemes, lexeme.span.start < lexeme.span.stop
  stop_le : ∀ lexeme ∈ lexemes, lexeme.span.stop ≤ byteLength text
  ordered : lexemes.Pairwise fun lexeme later => lexeme.span.stop ≤ later.span.start
  line_eq : ∀ lexeme ∈ lexemes,
    lexeme.line = 1 + lineBreaks (Span.charsIn ⟨0, lexeme.span.start⟩ 0 text)
  spelled : ∀ lexeme ∈ lexemes, lexeme.token.SpelledBy (lexeme.wordIn text)
  gap_before : ∀ range ∈ rangesBefore 0 lexemes, Gap (range.charsIn 0 text)
  gap_behind : LastGap (Span.charsIn ⟨lastStop 0 lexemes, byteLength text⟩ 0 text)

/-- The tokens of a source text are a partition of it. -/
theorem tokenize_partition {source : String} {lexemes : List Lexeme}
    (h : tokenize source = .ok lexemes) : Partition source.toList lexemes := by
  obtain ⟨_, rfl, hparts⟩ := parts_of_tokenizeFrom h [] rfl rfl
  -- where a token stands says all of its range, line and text
  have hstands := hparts.exists_standsAt
  refine ⟨hparts.ascii, ?_, ?_, hparts.pairwise, ?_, ?_, hparts.gap_of_mem_rangesBefore,
    hparts.lastGap_behind⟩
  all_goals
    intro lexeme hlexeme
    obtain ⟨before, c, word, behind, hsource, hlexeme⟩ := hstands lexeme hlexeme
    rw [List.nil_append] at hsource
  · have hc := Char.utf8Size_pos c
    have hword := byteLength_cons c word
    rw [hlexeme.span]
    dsimp only
    omega
  · have hwhole := byteLength_append (before ++ c :: word) behind
    rw [hsource, hlexeme.stop_eq, ← List.append_assoc]
    omega
  · have hbefore := Span.charsIn_word [] before (c :: word ++ behind)
    have hempty : byteLength [] = 0 := rfl
    rw [List.nil_append, hempty, Nat.zero_add] at hbefore
    rw [hsource, hlexeme.span, hbefore]
    exact hlexeme.line
  · rw [hsource, hlexeme.wordIn_eq]
    exact hlexeme.written.spelled

/-- A string with a quote in it, a regex with slashes in it, and comments of both kinds, the last
one not ended by a line break. -/
def slashesAndQuotes : String := "s = 'it\\'s' // one\n/* *\n */ 0x1f/3n, /[/]\\//gi// two"

/-- Slashes that divide, begin comments and regular expressions, and quotes inside a string. -/
theorem tokenize_partition_slashesAndQuotes :
    ∃ lexemes : List Lexeme, lexemes.map Lexeme.token = [.ident "s", .sign (.assign .plain),
        .string "it\\'s", .number (.ofInt 31), .sign (.binary (.arith .div)), .bigInt (.ofInt 3),
        .punctuation .comma, .regex "[/]\\/" "gi"] ∧
      lexemes.map Lexeme.line = [1, 1, 1, 3, 3, 3, 3, 3] ∧
      tokenize slashesAndQuotes = .ok lexemes ∧ Partition slashesAndQuotes.toList lexemes := by
  have hread : tokenize slashesAndQuotes = .ok ((tokenize slashesAndQuotes).toOption.getD []) :=
    eq_ok_of_toOption (by decide +kernel)
  exact ⟨_, by decide +kernel, by decide +kernel, hread, tokenize_partition hread⟩

end MeteredScript
