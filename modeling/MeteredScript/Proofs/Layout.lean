import MeteredScript.Proofs.RunSpans
import MeteredScript.Proofs.TokenEnds

namespace MeteredScript

/-! # Other layouts of a text

A source text is a sequence of words, the texts that its tokens are read from, with gaps of white
space and comments between them. Here the gaps are replaced by others, and the tokens turn out to be
the same. The lexer is followed without positions for this: `Lexed` says which tokens a text has and
what their words are, behind a token that decides whether a slash divides. `layOut_keeps_meaning`
adds what is read from the tokens, and what it does.
-/

open Text

/-! ## Words -/

/-- Bytes are added up from the left. -/
theorem foldl_utf8Size (size : Nat) (cs : List Char) :
    cs.foldl (fun size c => size + c.utf8Size) size = size + byteLength cs := by
  unfold byteLength
  induction cs generalizing size with
  | nil => rfl
  | cons c cs ih =>
    rw [List.foldl_cons, List.foldl_cons, ih (size + c.utf8Size), ih (0 + c.utf8Size)]
    omega

theorem byteLength_cons (c : Char) (cs : List Char) :
    byteLength (c :: cs) = c.utf8Size + byteLength cs := by
  have hfold := foldl_utf8Size (0 + c.utf8Size) cs
  rw [Nat.zero_add] at hfold
  rw [← hfold, byteLength, List.foldl_cons, Nat.zero_add]

/-- Bytes of texts in a row. -/
theorem byteLength_append (cs cs' : List Char) :
    byteLength (cs ++ cs') = byteLength cs + byteLength cs' := by
  induction cs with
  | nil => exact (Nat.zero_add _).symm
  | cons c cs ih => rw [List.cons_append, byteLength_cons, byteLength_cons, ih, Nat.add_assoc]

/-- The characters of a text that starts at `offset`, as far as they start in a range. -/
def Span.charsIn (span : Span) (offset : Nat) : List Char → List Char
  | [] => []
  | c :: cs =>
    if span.start ≤ offset ∧ offset < span.stop then c :: span.charsIn (offset + c.utf8Size) cs
    else span.charsIn (offset + c.utf8Size) cs

/-- The word that a token was read from. -/
def Lexeme.wordIn (source : List Char) (lexeme : Lexeme) : List Char := lexeme.span.charsIn 0 source

namespace Span

/-- What a range has of two texts in a row. -/
theorem charsIn_append (span : Span) (offset : Nat) (cs cs' : List Char) :
    span.charsIn offset (cs ++ cs') =
      span.charsIn offset cs ++ span.charsIn (offset + byteLength cs) cs' := by
  induction cs generalizing offset with
  | nil => rfl
  | cons c cs ih =>
    rw [List.cons_append, charsIn, charsIn, ih, byteLength_cons, Nat.add_assoc]
    split
    · rfl
    · rfl

/-- A range has nothing of what is in front of it. -/
theorem charsIn_before (span : Span) (offset : Nat) (cs : List Char)
    (h : offset + byteLength cs ≤ span.start) : span.charsIn offset cs = [] := by
  induction cs generalizing offset with
  | nil => rfl
  | cons c cs ih =>
    have hsize := c.utf8Size_pos
    rw [byteLength_cons] at h
    rw [charsIn, if_neg (by omega)]
    exact ih (offset + c.utf8Size) (by omega)

theorem charsIn_within (span : Span) (offset : Nat) (cs : List Char) (hstart : span.start ≤ offset)
    (hstop : offset + byteLength cs ≤ span.stop) : span.charsIn offset cs = cs := by
  induction cs generalizing offset with
  | nil => rfl
  | cons c cs ih =>
    have hsize := c.utf8Size_pos
    rw [byteLength_cons] at hstop
    rw [charsIn, if_pos (by omega), ih (offset + c.utf8Size) (by omega) (by omega)]

theorem charsIn_behind (span : Span) (offset : Nat) (cs : List Char) (h : span.stop ≤ offset) :
    span.charsIn offset cs = [] := by
  induction cs generalizing offset with
  | nil => rfl
  | cons c cs ih =>
    rw [charsIn, if_neg (by omega)]
    exact ih (offset + c.utf8Size) (by omega)

theorem charsIn_word (front word back : List Char) :
    Span.charsIn ⟨byteLength front, byteLength front + byteLength word⟩ 0
      (front ++ (word ++ back)) =
      word := by
  rw [charsIn_append, charsIn_append, Nat.zero_add]
  rw [charsIn_before _ 0 front (by simp)]
  rw [charsIn_within _ (byteLength front) word (Nat.le_refl _) (Nat.le_refl _)]
  rw [charsIn_behind _ _ back (Nat.le_refl _)]
  rw [List.nil_append, List.append_nil]

end Span

theorem Position.advance_offset (p : Position) (n : Nat) (cs : List Char) :
    (p.advance n cs).1.offset = p.offset + byteLength (cs.take n) := by
  induction n generalizing p cs with
  | zero => rfl
  | succ n ih =>
    cases cs with
    | nil => rfl
    | cons c cs =>
      rw [Position.advance, ih, List.take_succ_cons, byteLength_cons, Position.after]
      exact Nat.add_assoc _ _ _

/-- Where a word ends, behind the text in `front`. -/
theorem Position.offset_behind {p : Position} {front : List Char}
    (hfront : byteLength front = p.offset)
    (c : Char) (extra : Nat) (rest : List Char) :
    ((p.after c).advance extra rest).1.offset =
      byteLength front + byteLength (c :: rest.take extra) := by
  rw [Position.advance_offset, byteLength_cons, hfront, ← Nat.add_assoc]
  rfl

/-! ## Tokens without positions -/

/-- The tokens of a text behind the token `previous`, each with its word. -/
inductive Lexed : Option Token → List Char → List (Token × List Char) → Prop
  | done (previous : Option Token) : Lexed previous [] []
  | skip {previous : Option Token} {c : Char} {rest : List Char} {extra : Nat}
      {words : List (Token × List Char)} : Scan.next previous c rest = .skip extra →
      Lexed previous (rest.drop extra) words → Lexed previous (c :: rest) words
  | token {previous : Option Token} {c : Char} {rest : List Char} {t : Token} {extra : Nat}
      {words : List (Token × List Char)} : Scan.next previous c rest = .token t extra →
      Lexed (some t) (rest.drop extra) words →
      Lexed previous (c :: rest) ((t, c :: rest.take extra) :: words)

variable {gaps : List (List Char)} {words : List (Token × List Char)} {cs body gap : List Char}
  {previous : Option Token}

theorem Lexed.word {t : Token} {c : Char} {word rest : List Char}
    (hword : Scan.next previous c (word ++ rest) = .token t word.length)
    (hrest : Lexed (some t) rest words) :
    Lexed previous (c :: (word ++ rest)) ((t, c :: word) :: words) := by
  have hdrop : (word ++ rest).drop word.length = rest := List.drop_left
  have htake : (word ++ rest).take word.length = word := List.take_left
  have htoken := Lexed.token hword (hdrop.symm ▸ hrest)
  rwa [htake] at htoken

/-- What is read has tokens and words that follow without positions. The text in `front` is read
already, and takes part in the words only by its size. -/
theorem lexed_of_tokenizeFrom {read : List Lexeme} {position : Position} {lexemes : List Lexeme}
    (h : tokenizeFrom read position cs = .ok lexemes) (front : List Char)
    (hfront : byteLength front = position.offset) :
    ∃ behind, lexemes = read.reverse ++ behind ∧
      Lexed (read.head?.map Lexeme.token) cs
        (behind.map fun lexeme => (lexeme.token, lexeme.wordIn (front ++ cs))) := by
  -- a step moves what it reads from `cs` to the end of `front`; their sum stays the whole text
  fun_induction tokenizeFrom read position cs generalizing front with
  | case1 read position =>
    cases h
    exact ⟨[], (List.append_nil _).symm, .done _⟩
  | case2 read position c rest f extent hnext => cases h
  | case3 read position c rest extra hnext ahead ih =>
    have hrest : ahead.2 = rest.drop extra := Position.advance_snd _ _ _
    have hoffset := Position.offset_behind hfront c extra rest
    obtain ⟨behind, hlexemes, hlexed⟩ := ih h (front ++ c :: rest.take extra)
      ((byteLength_append _ _).trans hoffset.symm)
    rw [hrest, List.append_assoc, List.cons_append, List.take_append_drop] at hlexed
    exact ⟨behind, hlexemes, .skip hnext hlexed⟩
  | case4 read position c rest t extra hnext ahead lexeme ih =>
    have hrest : ahead.2 = rest.drop extra := Position.advance_snd _ _ _
    have hoffset := Position.offset_behind hfront c extra rest
    obtain ⟨behind, hlexemes, hlexed⟩ := ih h (front ++ c :: rest.take extra)
      ((byteLength_append _ _).trans hoffset.symm)
    rw [hrest, List.append_assoc, List.cons_append, List.take_append_drop] at hlexed
    refine ⟨lexeme :: behind, ?_, ?_⟩
    · rw [hlexemes, List.reverse_cons, List.append_assoc, List.singleton_append]
    · have hword : lexeme.wordIn (front ++ c :: rest) = c :: rest.take extra := by
        unfold Lexeme.wordIn
        have hspan : lexeme.span =
            ⟨byteLength front, byteLength front + byteLength (c :: rest.take extra)⟩ := by
          rw [← hoffset, hfront]
        have hsplit : c :: rest = c :: rest.take extra ++ rest.drop extra := by
          rw [List.cons_append, List.take_append_drop]
        rw [hspan, hsplit, Span.charsIn_word]
      rw [List.map_cons, hword]
      exact .token hnext hlexed

/-- A text with certain tokens is read, wherever it stands, and has these tokens. -/
theorem Lexed.tokenizeFrom (h : Lexed previous cs words) (read : List Lexeme) (position : Position)
    (hread : read.head?.map Lexeme.token = previous) :
    ∃ behind, tokenizeFrom read position cs = .ok (read.reverse ++ behind) ∧
      behind.map Lexeme.token = words.map Prod.fst := by
  induction h generalizing read position with
  | done previous => exact ⟨[], by rw [MeteredScript.tokenizeFrom, List.append_nil], rfl⟩
  | skip hnext _ ih =>
    rw [MeteredScript.tokenizeFrom, hread, hnext]
    dsimp only
    rw [Position.advance_snd]
    exact ih read _ hread
  | @token previous c rest t extra words hnext _ ih =>
    rw [MeteredScript.tokenizeFrom, hread, hnext]
    dsimp only
    rw [Position.advance_snd]
    -- the new token is the previous one for all that follows
    let ahead := (position.after c).advance extra rest
    obtain ⟨behind, hbehind, htokens⟩ :=
      ih (⟨t, ⟨position.offset, ahead.1.offset⟩, position.line⟩ :: read) ahead.1 rfl
    rw [hbehind, List.reverse_cons, List.append_assoc, List.singleton_append]
    exact ⟨_, rfl, by rw [List.map_cons, List.map_cons, htokens]⟩

/-! ## Gaps -/

/-- A gap between words: white space and comments. A comment to the end of the line has that end,
and a block comment ends at the first mark that closes it. Comments are in ASCII. -/
inductive Gap : List Char → Prop
  | nil : Gap []
  | layout {c : Char} {rest : List Char} : isLayout c = true → Gap rest → Gap (c :: rest)
  | line {body rest : List Char} : (∀ c ∈ body, isAscii c = true ∧ c ≠ '\n') → Gap rest →
      Gap ('/' :: '/' :: (body ++ '\n' :: rest))
  | block {body rest : List Char} : (∀ c ∈ body, isAscii c = true) →
      ¬['*', '/'] <:+: body ++ ['*'] → Gap rest → Gap ('/' :: '*' :: (body ++ '*' :: '/' :: rest))

theorem Scan.next_layout {c : Char} (hc : isLayout c = true) (previous : Option Token)
    (rest : List Char) : Scan.next previous c rest = .skip 0 := by
  unfold Scan.next
  rw [if_pos hc]

/-- A line comment is skipped up to the end of its line. -/
theorem Scan.next_line (hbody : ∀ c ∈ body, isAscii c = true ∧ c ≠ '\n') (previous : Option Token)
    (rest : List Char) :
    Scan.next previous '/' ('/' :: (body ++ '\n' :: rest)) = .skip (1 + body.length) := by
  have htake : (body ++ '\n' :: rest).takeWhile (· ≠ '\n') = body := by
    rw [List.takeWhile_append_of_pos fun c hc => decide_eq_true (hbody c hc).2]
    rw [List.takeWhile_cons_of_neg (by simp), List.append_nil]
  have hascii : body.all isAscii = true := List.all_eq_true.mpr fun c hc => (hbody c hc).1
  show Scan.lineComment (body ++ '\n' :: rest) = .skip (1 + body.length)
  unfold Scan.lineComment
  dsimp only
  rw [htake, if_pos hascii]

/-- A block comment ends at the first star with a slash behind it. -/
theorem Scan.blockLength?_append (hbody : ¬['*', '/'] <:+: body ++ ['*']) (count : Nat)
    (rest : List Char) :
    Scan.blockLength? count (body ++ '*' :: '/' :: rest) = some (count + body.length) := by
  induction body generalizing count with
  | nil => rfl
  | cons c body ih =>
    have hbehind : ¬['*', '/'] <:+: body ++ ['*'] := by
      intro h
      exact hbody (List.infix_cons h)
    -- the body has no mark that would close the comment here
    have hopen : ∀ more, c = '*' → body ++ '*' :: '/' :: rest = '/' :: more → False := by
      rintro more rfl hmore
      cases body with
      | nil => cases hmore
      | cons d body =>
        rw [List.cons_append, List.cons.injEq] at hmore
        obtain ⟨rfl, -⟩ := hmore
        exact hbody ⟨[], body ++ ['*'], rfl⟩
    rw [List.cons_append, Scan.blockLength?.eq_2 _ _ _ hopen, ih hbehind, List.length_cons]
    congr 1
    omega

theorem Scan.next_block (hascii : ∀ c ∈ body, isAscii c = true)
    (hbody : ¬['*', '/'] <:+: body ++ ['*']) (previous : Option Token) (rest : List Char) :
    Scan.next previous '/' ('*' :: (body ++ '*' :: '/' :: rest)) = .skip (1 + body.length + 2) := by
  show Scan.blockComment (body ++ '*' :: '/' :: rest) = .skip (1 + body.length + 2)
  unfold Scan.blockComment
  rw [Scan.blockLength?_append hbody, Nat.zero_add]
  dsimp only
  rw [List.take_left, if_pos (List.all_eq_true.mpr hascii)]

theorem Gap.lexed (hgap : Gap gap) {rest : List Char} (h : Lexed previous rest words) :
    Lexed previous (gap ++ rest) words := by
  induction hgap with
  | nil => exact h
  | layout hc _ ih => exact .skip (Scan.next_layout hc previous _) ih
  | @line body gap hbody _ ih =>
    simp only [List.cons_append, List.append_assoc]
    refine .skip (Scan.next_line hbody previous _) ?_
    rw [Nat.add_comm, List.drop_succ_cons, List.drop_left]
    -- the end of the line is white space again
    exact .skip (Scan.next_layout rfl previous _) ih
  | @block body gap hascii hbody _ ih =>
    simp only [List.cons_append, List.append_assoc]
    refine .skip (Scan.next_block hascii hbody previous _) ?_
    rw [Nat.add_assoc, Nat.add_comm 1, List.drop_succ_cons, ← List.drop_drop, List.drop_left]
    exact ih

/-! ## Words in other gaps -/

def layOut (words gaps : List (List Char)) : List Char :=
  (List.zipWith (fun word gap => word ++ gap) words gaps).flatten

theorem layOut_cons (word gap : List Char) (words gaps : List (List Char)) :
    layOut (word :: words) (gap :: gaps) = word ++ (gap ++ layOut words gaps) :=
  List.append_assoc _ _ _

/-- Whether a gap starts with white space. -/
def startsBlank (gap : List Char) : Bool := gap.head?.any isLayout

/-- Gaps that may stand behind words. Those between two words start with white space, which keeps
the words apart. Behind a slash at the end this is needed as well, since a comment would begin with
it. -/
structure Gaps (words gaps : List (List Char)) : Prop where
  length : gaps.length = words.length
  gap : ∀ gap ∈ gaps, Gap gap
  inner : ∀ gap ∈ gaps.dropLast, startsBlank gap = true
  last : words.getLast? = some ['/'] → ∀ gap ∈ gaps.getLast?, gap = [] ∨ startsBlank gap = true

theorem endsBefore_of_startsBlank (h : startsBlank gap = true) (word rest : List Char) :
    Scan.EndsBefore word (gap ++ rest) := by
  cases gap with
  | nil => cases h
  | cons c gap =>
    intro d hd
    cases hd
    exact .inl h

/-- Unless the word is a slash, any gap ends it. -/
theorem Gap.endsBefore {word : List Char} (hgap : Gap gap) (hword : word ≠ ['/']) :
    Scan.EndsBefore word gap := by
  intro c hc
  cases hgap with
  | nil => cases hc
  | layout hlayout _ =>
    cases hc
    exact .inl hlayout
  | line _ _ =>
    cases hc
    exact .inr ⟨rfl, hword⟩
  | block _ _ _ =>
    cases hc
    exact .inr ⟨rfl, hword⟩

/-- Behind the first word is a gap that ends it, and behind the others are gaps as well. -/
theorem Gaps.cons {word : List Char} {words : List (List Char)} (h : Gaps (word :: words) gaps) :
    ∃ gap rest, gaps = gap :: rest ∧ Gap gap ∧ Scan.EndsBefore word (gap ++ layOut words rest) ∧
      Gaps words rest := by
  obtain ⟨gap, rest, rfl⟩ := List.exists_cons_of_length_eq_add_one h.length
  have hlength : rest.length = words.length := Nat.succ.inj h.length
  have hgap := h.gap gap List.mem_cons_self
  refine ⟨gap, rest, rfl, hgap, ?_, ?_⟩
  · cases rest with
    | nil =>
      -- the last word, which may be a slash
      have hnil : words = [] := List.eq_nil_of_length_eq_zero hlength.symm
      subst hnil
      by_cases hslash : word = ['/']
      · rcases h.last (congrArg some hslash) gap rfl with rfl | hblank
        · intro c hc
          cases hc
        · exact endsBefore_of_startsBlank hblank word _
      · have hall : gap ++ layOut [] [] = gap := List.append_nil gap
        rw [hall]
        exact hgap.endsBefore hslash
    | cons next rest =>
      exact endsBefore_of_startsBlank (h.inner gap List.mem_cons_self) word _
  · cases rest with
    | nil =>
      have hnil : words = [] := List.eq_nil_of_length_eq_zero hlength.symm
      subst hnil
      exact ⟨rfl, fun _ h => absurd h List.not_mem_nil, fun _ h => absurd h List.not_mem_nil,
        fun h => by cases h⟩
    | cons next rest =>
      obtain ⟨other, words, rfl⟩ := List.exists_cons_of_length_eq_add_one hlength.symm
      refine ⟨hlength, fun g hg => ?_, fun g hg => ?_, fun hlast => ?_⟩
      · exact h.gap g (List.mem_cons_of_mem _ hg)
      · exact h.inner g (List.mem_cons_of_mem _ hg)
      · exact h.last hlast

/-- The words of a text give the same tokens in all gaps. -/
theorem Lexed.layOut (h : Lexed previous cs words) (hgaps : Gaps (words.map Prod.snd) gaps) :
    Lexed previous (layOut (words.map Prod.snd) gaps) words := by
  induction h generalizing gaps with
  | done previous => exact .done previous
  | skip _ _ ih => exact ih hgaps
  | @token previous c rest t extra words hnext _ ih =>
    obtain ⟨word, tail, rfl, rfl, hspells⟩ := Scan.spells_of_next hnext
    rw [List.map_cons, List.take_left] at hgaps ⊢
    obtain ⟨gap, gaps, rfl, hgap, hends, hgaps⟩ := hgaps.cons
    -- the word is read again, behind it the gap is passed, and then the other words follow
    rw [layOut_cons]
    exact .word (hspells _ hends) (hgap.lexed (ih hgaps))

/-- The words of a text that is read have the same tokens in all gaps. -/
theorem tokenize_layOut {source : String} {lexemes : List Lexeme}
    (h : tokenize source = .ok lexemes) {first : List Char} (hfirst : Gap first)
    (hgaps : Gaps (lexemes.map (Lexeme.wordIn source.toList)) gaps) :
    ∃ lexemes', tokenize (String.ofList
        (first ++ layOut (lexemes.map (Lexeme.wordIn source.toList)) gaps)) = .ok lexemes' ∧
      lexemes'.map Lexeme.token = lexemes.map Lexeme.token := by
  obtain ⟨_, rfl, hlexed⟩ := lexed_of_tokenizeFrom h [] rfl
  rw [List.nil_append] at hlexed
  -- words and tokens are listed together from here on
  have hwords : lexemes.map (Lexeme.wordIn source.toList) =
      (lexemes.map fun lexeme => (lexeme.token, lexeme.wordIn source.toList)).map Prod.snd := by
    rw [List.map_map]
    rfl
  rw [hwords] at hgaps ⊢
  obtain ⟨again, hagain, htokens⟩ := (hfirst.lexed (hlexed.layOut hgaps)).tokenizeFrom [] {} rfl
  refine ⟨again, ?_, ?_⟩
  · rw [tokenize, String.toList_ofList]
    exact hagain
  · rw [htokens, List.map_map]
    rfl

theorem eq_ok_of_toOption {ε α : Type} {x : Except ε α} {a : α} (h : x.toOption = some a) :
    x = .ok a := by
  cases x with
  | error e => cases h
  | ok b =>
    cases h
    rfl

/-- Layout has no meaning: if the words of a source text are put into other gaps, the text is read
to the same tokens, these spell a program with the same nodes or fail with the same error, and the
program runs as before. -/
theorem layOut_keeps_meaning {source : String} {lexemes : List Lexeme}
    (hsource : tokenize source = .ok lexemes) {first : List Char} (hfirst : Gap first)
    {gaps : List (List Char)} (hgaps : Gaps (lexemes.map (Lexeme.wordIn source.toList)) gaps) :
    ∃ lexemes', tokenize (String.ofList
        (first ++ layOut (lexemes.map (Lexeme.wordIn source.toList)) gaps)) = .ok lexemes' ∧
      lexemes'.map Lexeme.token = lexemes.map Lexeme.token ∧
      SameMeaning (Program.ofTokens? lexemes) (Program.ofTokens? lexemes') := by
  obtain ⟨lexemes', hread, htokens⟩ := tokenize_layOut hsource hfirst hgaps
  exact ⟨lexemes', hread, htokens, Program.sameMeaning_ofTokens? htokens⟩

/-- A quotient, written without any gap that could be left out. -/
def denseQuotient : String := "function f()\x7breturn 7/2\x7d"

/-- Other gaps for its words, with comments around the slash and behind the end. -/
def looseGaps : List (List Char) :=
  [[' '], ['\t'], ['\x0b'], ['\r'], ['\n'], ['\x0c'], [' ', '/', '*', '/', '*', '/'],
    [' ', '/', '/', '7', '\n'], [' '], ['/', '/', '\n']]

/-- A quotient with comments around its slash. -/
theorem denseQuotient_layOut_keeps_meaning :
    ∃ lexemes lexemes' : List Lexeme, tokenize denseQuotient = .ok lexemes ∧
      Gaps (lexemes.map (Lexeme.wordIn denseQuotient.toList)) looseGaps ∧
      tokenize (String.ofList (['\n'] ++
        layOut (lexemes.map (Lexeme.wordIn denseQuotient.toList)) looseGaps)) = .ok lexemes' ∧
      lexemes'.map Lexeme.token = lexemes.map Lexeme.token ∧
      SameMeaning (Program.ofTokens? lexemes) (Program.ofTokens? lexemes') := by
  have hread : tokenize denseQuotient = .ok ((tokenize denseQuotient).toOption.getD []) :=
    eq_ok_of_toOption (by decide +kernel)
  have hwords : ((tokenize denseQuotient).toOption.getD []).map
        (Lexeme.wordIn denseQuotient.toList) =
      [['f', 'u', 'n', 'c', 't', 'i', 'o', 'n'], ['f'], ['('], [')'], ['\x7b'],
        ['r', 'e', 't', 'u', 'r', 'n'], ['7'], ['/'], ['2'], ['\x7d']] := by
    decide +kernel
  have hgaps : Gaps (((tokenize denseQuotient).toOption.getD []).map
      (Lexeme.wordIn denseQuotient.toList)) looseGaps := by
    rw [hwords]
    refine ⟨rfl, fun gap hgap => ?_, by decide, fun hlast => absurd hlast (by decide)⟩
    -- the comments are told from the slash by the blanks in front of them
    have hblock : Gap (' ' :: '/' :: '*' :: (['/'] ++ '*' :: '/' :: [])) :=
      .layout rfl (.block (List.forall_mem_singleton.mpr rfl) (by decide) .nil)
    have hline : Gap (' ' :: '/' :: '/' :: (['7'] ++ '\n' :: [])) :=
      .layout rfl (.line (List.forall_mem_singleton.mpr (by decide)) .nil)
    have hend : Gap ('/' :: '/' :: ([] ++ '\n' :: [])) := .line (List.forall_mem_nil _) .nil
    simp only [looseGaps, List.mem_cons, List.not_mem_nil, or_false] at hgap
    rcases hgap with rfl | rfl | rfl | rfl | rfl | rfl | rfl | rfl | rfl | rfl
    · exact .layout rfl .nil
    · exact .layout rfl .nil
    · exact .layout rfl .nil
    · exact .layout rfl .nil
    · exact .layout rfl .nil
    · exact .layout rfl .nil
    · exact hblock
    · exact hline
    · exact .layout rfl .nil
    · exact hend
  have hfirst : Gap ['\n'] := .layout rfl .nil
  obtain ⟨lexemes', hread', htokens, hmeaning⟩ := layOut_keeps_meaning hread hfirst hgaps
  exact ⟨_, lexemes', hread, hgaps, hread', htokens, hmeaning⟩

/-- Behind a slash at the end, a gap has to start with white space: a comment there starts one
character early and takes the slash with it. -/
theorem layOut_slash_lost_in_comment :
    ¬∀ (source : String) (lexemes : List Lexeme) (first : List Char) (gaps : List (List Char)),
      tokenize source = .ok lexemes → Gap first → gaps.length = lexemes.length →
      (∀ gap ∈ gaps, Gap gap) → (∀ gap ∈ gaps.dropLast, startsBlank gap = true) →
      ∃ lexemes', tokenize (String.ofList
          (first ++ layOut (lexemes.map (Lexeme.wordIn source.toList)) gaps)) = .ok lexemes' ∧
        lexemes'.map Lexeme.token = lexemes.map Lexeme.token := by
  intro h
  have hread : tokenize "a /" = .ok [⟨.ident "a", ⟨0, 1⟩, 1⟩,
      ⟨.sign (.binary (.arith .div)), ⟨2, 3⟩, 1⟩] := eq_ok_of_toOption (by decide +kernel)
  have hblock : Gap ('/' :: '*' :: ([] ++ '*' :: '/' :: [])) :=
    .block (List.forall_mem_nil _) (by decide) .nil
  have hblank : Gap [' '] := .layout rfl .nil
  obtain ⟨lexemes', hread', htokens⟩ := h "a /" _ [] [[' '], ['/', '*', '*', '/']] hread .nil rfl
    (List.forall_mem_cons.mpr ⟨hblank, List.forall_mem_singleton.mpr hblock⟩) (by decide)
  have hlost : (tokenize (String.ofList ([] ++ layOut
      ([⟨.ident "a", ⟨0, 1⟩, 1⟩, ⟨.sign (.binary (.arith .div)), ⟨2, 3⟩, 1⟩].map
        (Lexeme.wordIn "a /".toList)) [[' '], ['/', '*', '*', '/']]))).toOption.map
      (List.map Lexeme.token) = some [.ident "a"] := by
    decide +kernel
  rw [hread'] at hlost
  have hsame := Option.some.inj hlost
  rw [htokens] at hsame
  exact absurd hsame (by decide)

end MeteredScript
