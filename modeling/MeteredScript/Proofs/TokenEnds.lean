import MeteredScript.Proofs.NumberEnds

namespace MeteredScript

/-! # Where a token ends

A token that was read from a source text is read again from its own text, if it is followed by white
space, by a comment or by nothing. `Scan.Spells` says so, and `Scan.spells_of_next` is the result.
-/

open Text

theorem isWordChar_of_isDigit {c : Char} (hc : isDigit c = true) : isWordChar c = true := by
  simp [isWordChar, hc]

theorem isWordChar_of_isDigitOf {radix : Nat} {c : Char} (hc : isDigitOf radix c = true) :
    isWordChar c = true := by
  unfold isDigitOf digitValue? at hc
  unfold isWordChar isDigit
  by_cases hdigit : '0' ≤ c ∧ c ≤ '9'
  · simp [hdigit]
  by_cases hsmall : 'a' ≤ c ∧ c ≤ 'z'
  · simp [hsmall]
  by_cases hcapital : 'A' ≤ c ∧ c ≤ 'Z'
  · simp [hcapital]
  rw [if_neg hdigit, if_neg hsmall, if_neg hcapital] at hc
  simp at hc

namespace Scan

/-! ## Strings, regexes, words and signs -/

/-- `rest` has a part that ends with `mark`, and any text that starts with this part and the mark
reads like it. The length of the part, added to `count`, is `n`. -/
def Closes (read : List Char → Except LexFault Nat) (mark : Char) (count : Nat) (rest : List Char)
    (n : Nat) : Prop :=
  ∃ body tail, rest = body ++ mark :: tail ∧ n = count + body.length ∧
    ∀ tail', read (body ++ mark :: tail') = .ok n

variable {c : Char} {rest text tail : List Char} {count n extra : Nat} {previous : Option Token}
  {t : Token}

/-- Characters that are passed before a part is closed. -/
theorem Closes.behind {read read' : List Char → Except LexFault Nat} {mark : Char}
    (front : List Char) (h : Closes read mark (count + front.length) rest n)
    (hread : ∀ tail, read' (front ++ tail) = read tail) :
    Closes read' mark count (front ++ rest) n := by
  obtain ⟨body, tail, rfl, rfl, hbody⟩ := h
  refine ⟨front ++ body, tail, (List.append_assoc _ _ _).symm, ?_, fun tail' => ?_⟩
  · rw [List.length_append, Nat.add_assoc]
  · rw [List.append_assoc, hread, hbody]

/-- A string ends at its quote, whatever is behind it. -/
theorem closes_stringLength {quote : Char} (h : stringLength quote count rest = .ok n) :
    Closes (stringLength quote count) quote count rest n := by
  fun_induction stringLength quote count rest with
  | case1 | case2 | case3 | case4 | case5 | case6 => cases h
  | case7 count escaped rest hline hascii _ _ ih =>
    -- whatever is escaped, the mark is behind it
    refine (ih h).behind ['\\', escaped] fun tail => ?_
    rw [List.cons_append, List.cons_append, List.nil_append, stringLength.eq_def]
    exact (if_neg hline).trans (if_neg hascii)
  | case8 count rest hascii hline hslash =>
    cases h
    refine ⟨[], rest, rfl, rfl, fun tail' => ?_⟩
    rw [List.nil_append, stringLength.eq_def]
    dsimp only
    rw [if_neg hascii, if_neg hline, if_neg hslash, if_pos rfl]
  | case9 count c rest hascii hline hslash hquote ih =>
    refine (ih h).behind [c] fun tail => ?_
    rw [List.cons_append, List.nil_append, stringLength.eq_def]
    dsimp only
    rw [if_neg hascii, if_neg hline, if_neg hslash, if_neg hquote]

/-- A regular expression ends at its slash, whatever is behind it. -/
theorem closes_regexLength {inBrackets : Bool} (h : regexLength inBrackets count rest = .ok n) :
    Closes (regexLength inBrackets count) '/' count rest n := by
  fun_induction regexLength inBrackets count rest with
  | case1 | case2 | case3 | case4 | case5 | case6 => cases h
  | case7 inBrackets count escaped rest hline hascii _ _ ih =>
    refine (ih h).behind ['\\', escaped] fun tail => ?_
    rw [List.cons_append, List.cons_append, List.nil_append, regexLength.eq_def]
    exact (if_neg hline).trans (if_neg hascii)
  | case8 inBrackets count rest _ _ _ ih =>
    refine (ih h).behind ['['] fun tail => ?_
    rw [List.cons_append, List.nil_append, regexLength.eq_def]
    rfl
  | case9 inBrackets count rest _ _ _ _ ih =>
    refine (ih h).behind [']'] fun tail => ?_
    rw [List.cons_append, List.nil_append, regexLength.eq_def]
    rfl
  | case10 inBrackets count c rest hline hascii hslash hopen hclose hmark =>
    cases h
    -- a slash closes the regex outside of brackets only
    obtain ⟨rfl, hin⟩ := hmark
    refine ⟨[], rest, rfl, rfl, fun tail' => ?_⟩
    rw [List.nil_append, regexLength.eq_def]
    dsimp only
    rw [if_neg hline, if_neg hascii, if_neg hslash, if_neg hopen, if_neg hclose, if_pos ⟨rfl, hin⟩]
  | case11 inBrackets count c rest hline hascii hslash hopen hclose hmark ih =>
    refine (ih h).behind [c] fun tail => ?_
    rw [List.cons_append, List.nil_append, regexLength.eq_def]
    dsimp only
    rw [if_neg hline, if_neg hascii, if_neg hslash, if_neg hopen, if_neg hclose, if_neg hmark]

def TakesFront (scan : List Char → Scan) (rest : List Char) (t : Token) (extra : Nat) : Prop :=
  ∃ word tail, rest = word ++ tail ∧ word.length = extra ∧
    ∀ tail', Breaks tail' → scan (word ++ tail') = .token t extra

/-- A string is read again from its own text. -/
theorem takesFront_string {quote : Char} (h : string quote rest = .token t extra) :
    TakesFront (string quote) rest t extra := by
  unfold string at h
  split at h
  · rename_i length hlength
    cases h
    obtain ⟨body, tail, rfl, hbody, hread⟩ := closes_stringLength hlength
    rw [Nat.zero_add] at hbody
    subst hbody
    refine ⟨body ++ [quote], tail, by simp, by simp, fun tail' _ => ?_⟩
    rw [List.append_assoc, List.singleton_append]
    unfold string
    rw [hread tail']
    simp
  · cases h

/-- So is a regular expression, whose flags end where the text is broken off. -/
theorem takesFront_regex (h : regex rest = .token t extra) :
    TakesFront regex rest t extra ∧ 0 < extra := by
  unfold regex at h
  split at h
  · cases h
  · rename_i length hlength
    cases h
    obtain ⟨body, tail, rfl, hbody, hread⟩ := closes_regexLength hlength
    rw [Nat.zero_add] at hbody
    subst hbody
    refine ⟨⟨body ++ '/' :: tail.takeWhile isWordChar, tail.dropWhile isWordChar, ?_, ?_, ?_⟩,
      by omega⟩
    · rw [List.append_assoc, List.cons_append, List.takeWhile_append_dropWhile]
    · simp
      omega
    · intro tail' htail'
      -- the body does not depend on what follows its mark, and the flags end at the break
      have hflags : (tail.takeWhile isWordChar ++ tail').takeWhile isWordChar =
          tail.takeWhile isWordChar :=
        takeWhile_append_of_breaks (by decide) (List.all_eq_true.mp List.all_takeWhile) htail'
      rw [List.append_assoc, List.cons_append]
      unfold regex
      rw [hread]
      simp [hflags]

/-- So is a number: the longest form reaches as far as before. -/
theorem takesFront_number (h : number (c :: rest) = .token t extra)
    (hpos : 0 < (NumberForm.longest (c :: rest)).2) :
    TakesFront (fun rest => number (c :: rest)) rest t extra ∧
      extra + 1 = (NumberForm.longest (c :: rest)).2 := by
  have hle := NumberForm.longest_le (c :: rest)
  rw [List.length_cons] at hle
  obtain ⟨n, hn⟩ : ∃ n, (NumberForm.longest (c :: rest)).2 = n + 1 :=
    ⟨_, (Nat.succ_pred_eq_of_pos hpos).symm⟩
  have hlength : (rest.take n).length = n := by
    rw [List.length_take]
    omega
  have hsplit : c :: rest = c :: rest.take n ++ rest.drop n := by
    rw [List.cons_append, List.take_append_drop]
  unfold number at h
  dsimp only at h
  rw [hn, List.take_succ_cons] at h
  split at h
  · rename_i t' htoken
    cases h
    refine ⟨⟨rest.take n, rest.drop n, (List.take_append_drop n rest).symm, hlength, ?_⟩, hn.symm⟩
    intro tail' htail'
    -- no form reached beyond the number, so that each is as long before another break
    have hsame :
        NumberForm.longest (c :: rest.take n ++ tail') = NumberForm.longest (c :: rest) := by
      rw [hsplit] at hn
      have hfits : (NumberForm.longest (c :: rest.take n ++ rest.drop n)).2 ≤
          (c :: rest.take n).length := by
        refine Nat.le_of_eq ?_
        rw [hn, List.length_cons, hlength]
      rw [NumberForm.longest_append hfits htail', ← hsplit]
    have htake : (c :: (rest.take n ++ tail')).take (n + 1) = c :: rest.take n := by
      rw [List.take_succ_cons, List.take_left' hlength]
    unfold number
    dsimp only
    rw [← List.cons_append, hsame, hn, List.cons_append, htake, htoken]
  · cases h

theorem word_congr {cs cs' : List Char} (h : cs.takeWhile isWordChar = cs'.takeWhile isWordChar) :
    word cs = word cs' := by
  unfold word
  rw [h]

theorem takesFront_word (h : word (c :: rest) = .token t extra) (hc : isWordChar c = true) :
    TakesFront (fun rest => word (c :: rest)) rest t extra := by
  refine ⟨rest.takeWhile isWordChar, rest.dropWhile isWordChar,
    List.takeWhile_append_dropWhile.symm, ?_, fun tail' htail' => ?_⟩
  · unfold word at h
    dsimp only at h
    rw [List.takeWhile_cons_of_pos hc] at h
    split at h <;> · cases h; rfl
  · have hword : (rest.takeWhile isWordChar ++ tail').takeWhile isWordChar =
        rest.takeWhile isWordChar :=
      takeWhile_append_of_breaks (by decide) (List.all_eq_true.mp List.all_takeWhile) htail'
    rw [← h]
    apply word_congr
    rw [List.takeWhile_cons_of_pos hc, List.takeWhile_cons_of_pos hc, hword]

theorem isBreak_of_mem_symbols {s : List Char × Token} (hs : s ∈ symbols) (hc : c ∈ s.1.tail) :
    isBreak c = false := by
  have hall : ∀ s ∈ symbols, s.1.tail.any isBreak = false := by decide
  simpa using List.any_eq_false.mp (hall s hs) c hc

theorem ne_nil_of_mem_symbols : ∀ s ∈ symbols, s.1 ≠ [] := by
  decide

/-- A longer sign would go on into what follows, and breaks are in no sign. -/
theorem prefix_of_prefix_append {s : List Char × Token} (hs : s ∈ symbols) (htext : text ≠ [])
    (htail : Breaks tail) (h : s.1 <+: text ++ tail) : s.1 <+: text := by
  rcases Nat.le_total s.1.length text.length with hle | hle
  · exact List.prefix_of_prefix_length_le h (List.prefix_append text tail) hle
  · obtain ⟨more, hmore⟩ := List.prefix_of_prefix_length_le (List.prefix_append text tail) h hle
    rw [← hmore, List.prefix_append_right_inj] at h
    cases more with
    | nil =>
      rw [List.append_nil] at hmore
      exact hmore ▸ List.prefix_refl _
    | cons c more =>
      -- the sign would go on with the break
      obtain ⟨tail', rfl⟩ := h
      obtain ⟨first, text, rfl⟩ := List.exists_cons_of_ne_nil htext
      have hc : c ∈ s.1.tail := by
        rw [← hmore]
        simp
      exact absurd (htail c rfl) (by rw [isBreak_of_mem_symbols hs hc]; decide)

/-- No sign goes on with white space or a slash. -/
theorem symbol?_append (h : symbol? (text ++ tail) = some (text, t)) {tail' : List Char}
    (htail' : Breaks tail') : symbol? (text ++ tail') = some (text, t) := by
  unfold symbol? at h ⊢
  rw [List.find?_eq_some_iff_append] at h ⊢
  obtain ⟨-, before, behind, hsymbols, hnone⟩ := h
  refine ⟨by simp, before, behind, hsymbols, fun s hs => ?_⟩
  have hmem : ∀ s ∈ before ++ (text, t) :: behind, s ∈ symbols := fun s hs => hsymbols ▸ hs
  have htext : text ≠ [] := ne_nil_of_mem_symbols (text, t) (hmem _ (by simp))
  have hnot := hnone s hs
  simp only [Bool.not_eq_eq_eq_not, Bool.not_true, ← Bool.not_eq_true, List.isPrefixOf_iff_prefix]
    at hnot ⊢
  -- a sign that is listed earlier and fits the new text would have fitted the old one
  intro hfront
  have hshort := prefix_of_prefix_append (hmem s (by simp [hs])) htext htail' hfront
  exact hnot (hshort.trans (List.prefix_append text tail))

/-! ## Tokens -/

/-- Whether the token that is spelled `text` ends in front of `tail`: there is nothing, or white
space, or a slash, which however would make a comment of the sign `/`. -/
def EndsBefore (text tail : List Char) : Prop :=
  ∀ c ∈ tail.head?, isLayout c = true ∨ (c = '/' ∧ text ≠ ['/'])

/-- Where a token ends, the text is broken off. -/
theorem EndsBefore.breaks (h : EndsBefore text tail) : Breaks tail := by
  intro c hc
  unfold isBreak
  rcases h c hc with hlayout | hslash
  · rw [hlayout, Bool.true_or]
  · rw [hslash.1]
    rfl

/-- The character `c` and the `word` behind it spell the token `t` behind the token `previous`,
wherever it ends. -/
def Spells (previous : Option Token) (t : Token) (c : Char) (word : List Char) : Prop :=
  ∀ tail, EndsBefore (c :: word) tail → next previous c (word ++ tail) = .token t word.length

theorem head?_append_eq {word : List Char} (h : 0 < word.length) (tail tail' : List Char) :
    (word ++ tail).head? = (word ++ tail').head? := by
  obtain ⟨c, rest, rfl⟩ := List.exists_cons_of_length_pos h
  rfl

theorem slash_of_head (hline : rest.head? ≠ some '/') (hblock : rest.head? ≠ some '*')
    (previous : Option Token) :
    slash previous rest =
      if (previous.map Token.allowsRegexAfter).getD true then regex rest
      else if rest.head? = some '=' then token (.sign (.assign (.compound .div))) 1
      else token (.sign (.binary (.arith .div))) 0 := by
  unfold slash
  split
  · exact absurd rfl hline
  · exact absurd rfl hblock
  · rfl

/-- A slash that is read as a token begins no comment. -/
theorem head_of_slash (h : slash previous rest = .token t extra) :
    rest.head? ≠ some '/' ∧ rest.head? ≠ some '*' := by
  constructor
  · intro hhead
    obtain ⟨body, rfl⟩ := List.head?_eq_some_iff.mp hhead
    simp only [slash, lineComment] at h
    split at h <;> cases h
  · intro hhead
    obtain ⟨body, rfl⟩ := List.head?_eq_some_iff.mp hhead
    simp only [slash, blockComment] at h
    split at h
    · cases h
    · split at h <;> cases h

/-- Tokens that begin with a slash are read again if what follows makes no comment of them. -/
theorem spells_slash (h : slash previous rest = .token t extra) :
    ∃ word tail, rest = word ++ tail ∧ word.length = extra ∧
      ∀ tail', EndsBefore ('/' :: word) tail' →
        slash previous (word ++ tail') = .token t extra := by
  obtain ⟨hline, hblock⟩ := head_of_slash h
  rw [slash_of_head hline hblock] at h
  by_cases hregex : (previous.map Token.allowsRegexAfter).getD true = true
  · -- a regex has a character behind the slash, which stays what it is
    rw [if_pos hregex] at h
    obtain ⟨⟨word, tail, rfl, hlength, hword⟩, hpos⟩ := takesFront_regex h
    refine ⟨word, tail, rfl, hlength, fun tail' htail' => ?_⟩
    have hhead := head?_append_eq (hlength ▸ hpos) tail' tail
    rw [slash_of_head (hhead ▸ hline) (hhead ▸ hblock), if_pos hregex, hword tail' htail'.breaks]
  · rw [if_neg hregex] at h
    split at h
    · cases h
      rename_i hassign
      obtain ⟨tail, rfl⟩ := List.head?_eq_some_iff.mp hassign
      refine ⟨['='], tail, rfl, rfl, fun tail' _ => ?_⟩
      rw [slash_of_head (by simp) (by simp), if_neg hregex]
      rfl
    · cases h
      refine ⟨[], rest, rfl, rfl, fun tail' htail' => ?_⟩
      -- only here it matters that no slash follows: there is white space or nothing
      have hhead : ∀ c, isLayout c = false → tail'.head? ≠ some c := by
        intro c hc hsome
        rcases htail' c hsome with hlayout | hslash
        · exact Bool.false_ne_true (hc.symm.trans hlayout)
        · exact hslash.2 rfl
      rw [List.nil_append, slash_of_head (hhead '/' rfl) (hhead '*' rfl), if_neg hregex,
        if_neg (hhead '=' rfl)]

/-- Whether a number starts at a character. -/
abbrev StartsNumber (c : Char) (rest : List Char) : Prop :=
  isDigit c = true ∨ (c = '.' ∧ (rest.head?.map isDigit).getD false = true)

/-- Where a number starts there is one, and a point is not all of it. -/
theorem StartsNumber.longest_pos (h : StartsNumber c rest) :
    0 < (NumberForm.longest (c :: rest)).2 ∧
      (c = '.' → 1 < (NumberForm.longest (c :: rest)).2) := by
  rcases h with hdigit | ⟨rfl, hdigit⟩
  · -- digits are of the form for letters and digits, at least
    have hword := NumberForm.length_le_longest .word (c :: rest)
    have hchar : isWordChar c = true := isWordChar_of_isDigit hdigit
    have hchosen : chosenLength isDigit (countWhile isWordChar) (fun _ => 0) (c :: rest) =
        countWhile isWordChar (c :: rest) := if_pos hdigit
    rw [NumberForm.length_word_eq, hchosen, countWhile, List.takeWhile_cons_of_pos hchar,
      List.length_cons] at hword
    refine ⟨by omega, ?_⟩
    rintro rfl
    exact absurd hdigit (by decide)
  · -- a point and digits are a decimal number
    have hdecimal := NumberForm.length_le_longest .decimal ('.' :: rest)
    cases rest with
    | nil => exact absurd hdigit (by decide)
    | cons d rest =>
      have hd : isDigit d = true := hdigit
      have hfraction : 0 < countWhile isDigit (d :: rest) := by
        rw [countWhile, List.takeWhile_cons_of_pos hd]
        exact Nat.succ_pos _
      have hmantissa : NumberForm.mantissaLength ('.' :: d :: rest) =
          1 + countWhile isDigit (d :: rest) := if_neg (by omega)
      simp only [NumberForm.length, hmantissa] at hdecimal
      split at hdecimal
      · omega
      · exact ⟨by omega, fun _ => by omega⟩

/-- Whether a number starts is decided by two characters. -/
theorem startsNumber_append {word : List Char} (h : c = '.' → 0 < word.length)
    (tail tail' : List Char) : StartsNumber c (word ++ tail) ↔ StartsNumber c (word ++ tail') := by
  unfold StartsNumber
  by_cases hc : c = '.'
  · rw [head?_append_eq (h hc) tail tail']
  · simp only [hc, false_and]

theorem not_startsNumber_of_breaks (hc : isDigit c = false) (htail : Breaks tail) :
    ¬StartsNumber c tail := by
  rintro (hdigit | ⟨-, hdigit⟩)
  · exact Bool.false_ne_true (hc.symm.trans hdigit)
  · rcases htail.cases with rfl | ⟨d, rest, rfl, hd⟩
    · exact Bool.false_ne_true hdigit
    · have hnot : isDigit d = false := SparesBreaks.of_isBreak (by decide) hd
      exact Bool.false_ne_true (hnot.symm.trans hdigit)

theorem not_startsNumber_append {word : List Char} (h : ¬StartsNumber c (word ++ tail))
    {tail' : List Char} (htail' : Breaks tail') : ¬StartsNumber c (word ++ tail') := by
  cases word with
  | nil => exact not_startsNumber_of_breaks (by simpa using fun hd => h (.inl hd)) htail'
  | cons d word => exact h

/-- Signs and punctuation are read again. -/
theorem takesFront_symbol {spelling : List Char} (h : symbol? (c :: rest) = some (spelling, t)) :
    ∃ word tail, rest = word ++ tail ∧ spelling = c :: word ∧
      ∀ tail', Breaks tail' → symbol? (c :: (word ++ tail')) = some (c :: word, t) := by
  have hmem := List.mem_of_find?_eq_some h
  have hfront := List.find?_some h
  obtain ⟨tail, htail⟩ := List.isPrefixOf_iff_prefix.mp hfront
  obtain ⟨d, word, hspelling⟩ := List.exists_cons_of_ne_nil (ne_nil_of_mem_symbols _ hmem)
  dsimp only at htail hspelling
  subst hspelling
  rw [List.cons_append, List.cons.injEq] at htail
  obtain ⟨rfl, rfl⟩ := htail
  refine ⟨word, tail, rfl, rfl, fun tail' htail' => ?_⟩
  rw [← List.cons_append] at h ⊢
  exact symbol?_append h htail'

/-- Every token that does not begin with a slash is read again from its own text. -/
theorem takesFront_next (h : next previous c rest = .token t extra) (hslash : c ≠ '/') :
    TakesFront (next previous c) rest t extra := by
  -- the branches are decided by `c`, but for the numbers that start with a point
  unfold next at h
  by_cases hlayout : isLayout c = true
  · rw [if_pos hlayout] at h
    cases h
  rw [if_neg hlayout, if_neg hslash] at h
  by_cases hquote : c = '\'' ∨ c = '"'
  · rw [if_pos hquote] at h
    obtain ⟨word, tail, rfl, hlength, hword⟩ := takesFront_string h
    refine ⟨word, tail, rfl, hlength, fun tail' htail' => ?_⟩
    unfold next
    rw [if_neg hlayout, if_neg hslash, if_pos hquote, hword tail' htail']
  rw [if_neg hquote] at h
  by_cases hnumber : StartsNumber c rest
  · rw [if_pos hnumber] at h
    obtain ⟨hpos, hpoint⟩ := hnumber.longest_pos
    obtain ⟨⟨word, tail, rfl, hlength, hword⟩, hextra⟩ := takesFront_number h hpos
    refine ⟨word, tail, rfl, hlength, fun tail' htail' => ?_⟩
    have hagain : StartsNumber c (word ++ tail') := by
      -- behind a point, the digit that makes it a number belongs to the number
      refine (startsNumber_append (fun hc => ?_) tail tail').mp hnumber
      have hlong := hpoint hc
      omega
    unfold next
    rw [if_neg hlayout, if_neg hslash, if_neg hquote, if_pos hagain]
    exact hword tail' htail'
  rw [if_neg hnumber] at h
  by_cases hstart : isWordStart c = true
  · rw [if_pos hstart] at h
    have hchar : isWordChar c = true := (Bool.and_eq_true_iff.mp hstart).1
    obtain ⟨word, tail, rfl, hlength, hword⟩ := takesFront_word h hchar
    refine ⟨word, tail, rfl, hlength, fun tail' htail' => ?_⟩
    unfold next
    rw [if_neg hlayout, if_neg hslash, if_neg hquote,
      if_neg (not_startsNumber_append hnumber htail'), if_pos hstart]
    exact hword tail' htail'
  rw [if_neg hstart] at h
  split at h
  · rename_i spelling t' hsymbol
    cases h
    obtain ⟨word, tail, rfl, rfl, hword⟩ := takesFront_symbol hsymbol
    refine ⟨word, tail, rfl, rfl, fun tail' htail' => ?_⟩
    unfold next
    rw [if_neg hlayout, if_neg hslash, if_neg hquote,
      if_neg (not_startsNumber_append hnumber htail'), if_neg hstart, hword tail' htail']
  · cases h

/-- A token is read again wherever its text stands, if it ends there. -/
theorem spells_of_next (h : next previous c rest = .token t extra) :
    ∃ word tail, rest = word ++ tail ∧ word.length = extra ∧ Spells previous t c word := by
  by_cases hslash : c = '/'
  · subst hslash
    obtain ⟨word, tail, hrest, rfl, hword⟩ := spells_slash h
    exact ⟨word, tail, hrest, rfl, hword⟩
  · obtain ⟨word, tail, hrest, rfl, hword⟩ := takesFront_next h hslash
    exact ⟨word, tail, hrest, rfl, fun tail' htail' => hword tail' htail'.breaks⟩

end Scan

end MeteredScript
