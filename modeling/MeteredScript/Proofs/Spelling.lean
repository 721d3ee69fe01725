import MeteredScript.Proofs.TokenEnds

namespace MeteredScript

/-! # How tokens are spelled

The text that a token is read from is the token's own spelling (`Token.SpelledBy`), and it is in
ASCII. There is one lemma for each kind of word that the lexer scans, and `Scan.writtenAs_of_next`
puts them together.
-/

open Text

/-- The inside of a string: it has no line break, and no quote that is not behind a backslash. -/
inductive StringBody (quote : Char) : List Char → Prop
  | nil : StringBody quote []
  | plain {c : Char} {rest : List Char} : c ≠ quote → c ≠ '\\' → c ≠ '\n' →
      StringBody quote rest → StringBody quote (c :: rest)
  | escaped {c : Char} {rest : List Char} : c ≠ '\n' → StringBody quote rest →
      StringBody quote ('\\' :: c :: rest)

/-- Whether a text is a token's spelling. Words and signs have one only. A string stands between two
quotes of either kind, a regex between slashes in front of its flags, and a number is any text of a
form that has this value. Comments are in the gaps between tokens and spell none. -/
def Token.SpelledBy : Token → List Char → Prop
  | .keyword word, text => text = word.text.toList
  | .punctuation mark, text => text = mark.text.toList
  | .sign mark, text => text = mark.text.toList
  | .ident name, text => text = name.toList
  | .string body, text => ∃ quote, (quote = '\'' ∨ quote = '"') ∧
      text = quote :: (body.toList ++ [quote]) ∧ StringBody quote body.toList
  | .regex body flags, text => text = '/' :: (body.toList ++ '/' :: flags.toList) ∧
      (∀ c ∈ body.toList, c ≠ '\n') ∧ ∀ c ∈ flags.toList, isWordChar c = true
  | .number value, text => ∃ form : NumberForm, form.length text = text.length ∧
      form.token? text = .ok (.number value)
  | .bigInt value, text => ∃ form : NumberForm, form.length text = text.length ∧
      form.token? text = .ok (.bigInt value)
  | .comment, _ => False

/-- A text that is a token's spelling, in ASCII. -/
structure Token.WrittenAs (t : Token) (text : List Char) : Prop where
  spelled : t.SpelledBy text
  ascii : ∀ c ∈ text, isAscii c = true

/-! ## Numbers -/

variable {c : Char}

theorem isAscii_of_le {last : Char} (hlast : isAscii last = true) (hc : c ≤ last) :
    isAscii c = true := by
  have hle : c.toNat ≤ last.toNat := UInt32.le_iff_toNat_le.mp (Char.le_def.mp hc)
  unfold isAscii at hlast ⊢
  rw [decide_eq_true_eq] at hlast ⊢
  omega

theorem isAscii_of_isDigit (hc : isDigit c = true) : isAscii c = true := by
  unfold isDigit at hc
  rw [Bool.and_eq_true_iff, decide_eq_true_eq, decide_eq_true_eq] at hc
  exact isAscii_of_le (by decide) hc.2

theorem isAscii_of_isWordChar (hc : isWordChar c = true) : isAscii c = true := by
  unfold isWordChar at hc
  simp only [Bool.or_eq_true, Bool.and_eq_true, decide_eq_true_eq] at hc
  rcases hc with (((hdigit | hsmall) | hcapital) | rfl) | rfl
  · exact isAscii_of_isDigit hdigit
  · exact isAscii_of_le (by decide) hsmall.2
  · exact isAscii_of_le (by decide) hcapital.2
  · decide
  · decide

theorem isAscii_of_isDigitOf {radix : Nat} (hc : isDigitOf radix c = true) : isAscii c = true :=
  isAscii_of_isWordChar (isWordChar_of_isDigitOf hc)

theorem isAscii_of_decide {d : Char} (hd : isAscii d = true) (c : Char) (hc : decide (c = d) = true) :
    isAscii c = true := by
  rw [of_decide_eq_true hc]
  exact hd

theorem isAscii_of_decide_or {d d' : Char} (hd : isAscii d = true) (hd' : isAscii d' = true) (c : Char)
    (hc : (decide (c = d) || decide (c = d')) = true) : isAscii c = true := by
  rcases Bool.or_eq_true_iff.mp hc with hc | hc
  · exact isAscii_of_decide hd c hc
  · exact isAscii_of_decide hd' c hc

def CountsAscii (length : List Char → Nat) : Prop :=
  ∀ cs : List Char, ∀ c ∈ cs.take (length cs), isAscii c = true

namespace CountsAscii

variable {f g : List Char → Nat} {p : Char → Bool}

theorem zero : CountsAscii fun _ => 0 := by
  intro cs c hc
  simp at hc

theorem countWhile (hp : ∀ c, p c = true → isAscii c = true) :
    CountsAscii (MeteredScript.countWhile p) := by
  intro cs c hc
  have htake : cs.take (MeteredScript.countWhile p cs) = cs.takeWhile p :=
    (List.prefix_iff_eq_take.mp (List.takeWhile_prefix p)).symm
  rw [htake] at hc
  exact hp c (List.all_eq_true.mp List.all_takeWhile c hc)

/-- A single character of ASCII. -/
theorem one (hp : ∀ c, p c = true → isAscii c = true) : CountsAscii (oneLength p) := by
  intro cs c hc
  unfold oneLength at hc
  cases cs with
  | nil => simp at hc
  | cons first rest =>
    by_cases hfirst : p first = true
    · simp [hfirst] at hc
      rw [hc]
      exact hp first hfirst
    · simp [hfirst] at hc

theorem add (hf : CountsAscii f) (hg : CountsAscii g) :
    CountsAscii fun cs => f cs + g (cs.drop (f cs)) := by
  intro cs c hc
  rw [List.take_add] at hc
  rcases List.mem_append.mp hc with hfirst | hsecond
  · exact hf cs c hfirst
  · exact hg _ c hsecond

/-- A choice between lengths in ASCII, by whatever test. -/
theorem ite {test : List Char → Prop} [∀ cs, Decidable (test cs)] (hf : CountsAscii f)
    (hg : CountsAscii g) : CountsAscii fun cs => if test cs then f cs else g cs := by
  intro cs c hc
  dsimp only at hc
  by_cases htest : test cs
  · rw [if_pos htest] at hc
    exact hf cs c hc
  · rw [if_neg htest] at hc
    exact hg cs c hc

theorem followed (hf : CountsAscii f) (hg : CountsAscii g) : CountsAscii (followedLength f g) :=
  zero.ite (hf.add hg)

theorem chosen (hf : CountsAscii f) (hg : CountsAscii g) : CountsAscii (chosenLength p f g) :=
  hf.ite hg

theorem both (hf : CountsAscii f) (hg : CountsAscii g) : CountsAscii (bothLength f g) :=
  zero.ite (hf.add hg)

theorem marked (hp : ∀ c, p c = true → isAscii c = true) (hg : CountsAscii g) :
    CountsAscii (markedLength p g) :=
  (one hp).both hg

end CountsAscii

namespace NumberForm

theorem countsAscii_digits : CountsAscii (countWhile isDigit) :=
  .countWhile fun _ => isAscii_of_isDigit

/-- A mantissa is in ASCII. -/
theorem countsAscii_mantissaLength : CountsAscii mantissaLength := by
  have hpoint := isAscii_of_decide (d := '.') (by decide)
  rw [mantissaLength_eq]
  have hfraction := CountsAscii.marked hpoint countsAscii_digits
  have hdigits := (CountsAscii.one hpoint).followed countsAscii_digits
  exact hfraction.chosen (countsAscii_digits.followed hdigits)

theorem countsAscii_exponentLength : CountsAscii exponentLength := by
  rw [exponentLength_eq, signedLength_eq]
  refine .marked (isAscii_of_decide_or (by decide) (by decide)) (.chosen ?_ countsAscii_digits)
  exact .marked (isAscii_of_decide_or (by decide) (by decide)) countsAscii_digits

/-- So is what breaks an exponent. -/
theorem countsAscii_breakLength (atPoint : Bool) : CountsAscii (breakLength atPoint) := by
  have hsign : CountsAscii (oneLength fun c => c = '+' || c = '-') :=
    .one (isAscii_of_decide_or (by decide) (by decide))
  have hmark : CountsAscii (oneLength fun c => c = '.' || c = 'n') :=
    .one (isAscii_of_decide_or (by decide) (by decide))
  have hstart : CountsAscii signedStartLength :=
    .marked (isAscii_of_decide_or (by decide) (by decide)) hsign
  exact (CountsAscii.zero.ite hstart).ite (countsAscii_exponentLength.both hmark)

/-- So is a radix form, if the letters and what it takes for digits are. -/
theorem countsAscii_radixLength {lower upper : Char} {isRadixDigit : Char → Bool}
    (hlower : isAscii lower = true) (hupper : isAscii upper = true)
    (hdigits : ∀ c, isRadixDigit c = true → isAscii c = true) :
    CountsAscii (radixLength lower upper isRadixDigit) := by
  rw [radixLength_eq]
  have hletter := CountsAscii.marked (isAscii_of_decide_or hlower hupper) (.countWhile hdigits)
  exact .marked (isAscii_of_decide (by decide)) hletter

/-- Whatever starts like a number is in ASCII. -/
theorem countsAscii_length (form : NumberForm) : CountsAscii form.length := by
  cases form with
  | brokenExponent =>
    intro cs c hc
    rw [length, brokenExponentLength_eq] at hc
    exact countsAscii_mantissaLength.both (countsAscii_breakLength _) cs c hc
  | decimal => exact countsAscii_mantissaLength.followed countsAscii_exponentLength
  | hex => exact countsAscii_radixLength (by decide) (by decide) fun _ => isAscii_of_isDigitOf
  | octal | binary =>
    exact countsAscii_radixLength (by decide) (by decide) fun _ => isAscii_of_isDigit
  | bigInt =>
    rw [length_bigInt_eq]
    exact countsAscii_digits.both (.one (isAscii_of_decide (by decide)))
  | word =>
    rw [length_word_eq]
    exact (CountsAscii.countWhile fun _ => isAscii_of_isWordChar).chosen .zero

/-- The longest form has the length that is given with it, if there is any. -/
theorem length_longest {cs : List Char} (hpos : 0 < (longest cs).2) :
    (longest cs).1.length cs = (longest cs).2 := by
  -- The best form so far has the length that is remembered with it, unless that is zero.
  have hfold : ∀ (forms : List NumberForm) (best : NumberForm × Nat),
      (0 < best.2 → best.1.length cs = best.2) →
      0 < (forms.foldl (longer cs) best).2 →
      (forms.foldl (longer cs) best).1.length cs = (forms.foldl (longer cs) best).2 := by
    intro forms
    induction forms with
    | nil => exact fun best hbest => hbest
    | cons form forms ih =>
      intro best hbest
      apply ih
      unfold longer
      split
      · exact fun _ => rfl
      · exact hbest
  rw [longest_eq] at hpos ⊢
  exact hfold all (word, 0) (fun h => absurd h (Nat.lt_irrefl 0)) hpos

/-- The text that is the longest front of a form has this form as a whole. -/
theorem length_take_longest {cs : List Char} (hpos : 0 < (longest cs).2) :
    (longest cs).1.length (cs.take (longest cs).2) = (cs.take (longest cs).2).length := by
  have hlength : (cs.take (longest cs).2).length = (longest cs).2 := by
    rw [List.length_take]
    exact Nat.min_eq_left (longest_le cs)
  have hform := length_longest hpos
  have hfront := (longest cs).1.length_front (cs.take (longest cs).2) (cs.drop (longest cs).2)
  rw [List.take_append_drop, hlength] at hfront
  rw [← hfront (length_le_longest .decimal cs) (Nat.le_of_eq hform), hform, hlength]

/-- Numbers are of some form, and everything else that starts with a digit is a name. -/
theorem writtenAs_of_token? {form : NumberForm} {text : List Char} {t : Token}
    (hlength : form.length text = text.length) (h : form.token? text = .ok t) :
    t.WrittenAs text := by
  have hascii : ∀ c ∈ text, isAscii c = true := by
    intro c hc
    have hcounts := countsAscii_length form text c
    rw [hlength, List.take_length] at hcounts
    exact hcounts hc
  -- a form whose texts have a number, by the reader `value`
  have hnumber : ∀ value : Except LexFault Decimal, form.token? text = value.map .number →
      t.SpelledBy text := by
    intro value hvalue
    have hok := hvalue.symm.trans h
    cases value with
    | error fault => simp [Except.map] at hok
    | ok n =>
      rcases Except.ok.inj hok with rfl
      exact ⟨form, hlength, h⟩
  cases form with
  | brokenExponent => simp [token?] at h
  | decimal | hex | octal | binary => exact ⟨hnumber _ rfl, hascii⟩
  | bigInt =>
    refine ⟨?_, hascii⟩
    have hvalue := h
    unfold token? at hvalue
    dsimp only at hvalue
    split at hvalue
    · rcases Except.ok.inj hvalue with rfl
      exact ⟨.bigInt, hlength, h⟩
    · simp at hvalue
  | word =>
    rcases Except.ok.inj h with rfl
    refine ⟨?_, hascii⟩
    rw [Token.SpelledBy, String.toList_ofList]

end NumberForm

/-! ## Words -/

namespace Scan

variable {c : Char} {rest : List Char} {extra : Nat} {t : Token}

/-- The body of a string ends at its quote, and all of it is in ASCII. -/
theorem exists_of_stringLength {quote : Char} {count : Nat} {n : Nat}
    (h : stringLength quote count rest = .ok n) :
    ∃ body tail, rest = body ++ quote :: tail ∧ n = count + body.length ∧ StringBody quote body ∧
      ∀ c ∈ body, isAscii c = true := by
  -- an escaped character is passed together with its backslash
  fun_induction stringLength quote count rest with
  | case1 | case2 | case3 | case4 | case5 | case6 => simp at h
  | case7 count escaped rest hline hascii _ _ ih =>
    obtain ⟨body, tail, rfl, rfl, hbody, hbodyAscii⟩ := ih h
    refine ⟨'\\' :: escaped :: body, tail, rfl, ?_, .escaped hline hbody, ?_⟩
    · simp only [List.length_cons]
      omega
    · simp only [Bool.not_eq_true', Bool.not_eq_false] at hascii
      simp only [List.mem_cons, forall_eq_or_imp]
      exact ⟨by decide, hascii, hbodyAscii⟩
  | case8 count rest hascii hline hslash =>
    rcases Except.ok.inj h with rfl
    refine ⟨[], rest, rfl, rfl, .nil, ?_⟩
    simp
  | case9 count c rest hascii hline hslash hquote ih =>
    obtain ⟨body, tail, rfl, rfl, hbody, hbodyAscii⟩ := ih h
    refine ⟨c :: body, tail, rfl, ?_, .plain hquote hslash hline hbody, ?_⟩
    · simp only [List.length_cons]
      omega
    · simp only [Bool.not_eq_true', Bool.not_eq_false] at hascii
      exact List.forall_mem_cons.mpr ⟨hascii, hbodyAscii⟩

/-- Strings are spelled by their body between quotes. -/
theorem writtenAs_string {quote : Char} (hquote : quote = '\'' ∨ quote = '"')
    (h : string quote rest = .token t extra) : t.WrittenAs (quote :: rest.take extra) := by
  unfold string at h
  split at h
  · rename_i length hlength
    obtain ⟨body, tail, rfl, hbody, hgrammar, hascii⟩ := exists_of_stringLength hlength
    rw [Nat.zero_add] at hbody
    subst hbody
    simp only [token.injEq] at h
    obtain ⟨rfl, rfl⟩ := h
    -- The text of the literal reaches to its closing quote.
    have hword : (body ++ quote :: tail).take (body.length + 1) = body ++ [quote] := by
      rw [List.append_cons]
      exact List.take_left' (by simp)
    have hquoteAscii : isAscii quote = true := by rcases hquote with rfl | rfl <;> decide
    rw [hword, List.take_left]
    constructor
    · refine ⟨quote, hquote, ?_, ?_⟩
      · rw [String.toList_ofList]
      · rw [String.toList_ofList]
        exact hgrammar
    · simp only [List.mem_cons, List.mem_append, List.not_mem_nil, or_false]
      rintro c (rfl | hc | rfl)
      · exact hquoteAscii
      · exact hascii c hc
      · exact hquoteAscii
  · simp at h

/-- The body of a regular expression ends at a slash outside of brackets, on the same line. -/
theorem exists_of_regexLength {inBrackets : Bool} {count : Nat} {n : Nat}
    (h : regexLength inBrackets count rest = .ok n) :
    ∃ body tail, rest = body ++ '/' :: tail ∧ n = count + body.length ∧
      ∀ c ∈ body, isAscii c = true ∧ c ≠ '\n' := by
  -- one more character in front of a body
  have hcons : ∀ {count n : Nat} {c : Char} {rest : List Char},
      (!isAscii c) ≠ true → c ≠ '\n' →
      (∃ body tail, rest = body ++ '/' :: tail ∧ n = count + 1 + body.length ∧
        ∀ c ∈ body, isAscii c = true ∧ c ≠ '\n') →
      ∃ body tail, c :: rest = body ++ '/' :: tail ∧ n = count + body.length ∧
        ∀ c ∈ body, isAscii c = true ∧ c ≠ '\n' := by
    rintro count n c rest hascii hline ⟨body, tail, rfl, rfl, hbody⟩
    refine ⟨c :: body, tail, rfl, ?_, ?_⟩
    · simp only [List.length_cons]
      omega
    · simp only [ne_eq, Bool.not_eq_true', Bool.not_eq_false] at hascii
      exact List.forall_mem_cons.mpr ⟨⟨hascii, hline⟩, hbody⟩
  -- what is in brackets may hold slashes; an escaped character is passed with its backslash
  fun_induction regexLength inBrackets count rest with
  | case1 | case2 | case3 | case4 | case5 | case6 => simp at h
  | case7 inBrackets count escaped rest hline hascii _ _ ih =>
    exact hcons (by decide) (by decide) (hcons hascii hline (ih h))
  | case8 inBrackets count rest hline hascii _ ih => exact hcons hascii hline (ih h)
  | case9 inBrackets count rest hline hascii _ _ ih => exact hcons hascii hline (ih h)
  | case10 inBrackets count c rest _ _ _ _ _ hmark =>
    rcases Except.ok.inj h with rfl
    obtain ⟨rfl, _⟩ := hmark
    refine ⟨[], rest, rfl, rfl, ?_⟩
    simp
  | case11 inBrackets count c rest hline hascii _ _ _ _ ih => exact hcons hascii hline (ih h)

/-- Regular expressions are spelled by their body between slashes, and flags. -/
theorem writtenAs_regex (h : regex rest = .token t extra) :
    t.WrittenAs ('/' :: rest.take extra) := by
  unfold regex at h
  split at h
  · simp at h
  · rename_i length hlength
    obtain ⟨body, tail, rfl, hbody, hascii⟩ := exists_of_regexLength hlength
    rw [Nat.zero_add] at hbody
    subst hbody
    have hbehind : (body ++ '/' :: tail).drop (body.length + 1) = tail := by
      rw [List.append_cons]
      exact List.drop_left' (by simp)
    -- the flags are as many characters of words as follow the second slash
    have hword : (body ++ '/' :: tail).take (body.length + 1 + (tail.takeWhile isWordChar).length) =
        body ++ '/' :: tail.takeWhile isWordChar := by
      rw [List.take_add, hbehind, ← List.prefix_iff_eq_take.mp (List.takeWhile_prefix isWordChar),
        List.append_cons body '/' tail, List.take_left' (by simp), List.append_assoc,
        List.singleton_append]
    dsimp only at h
    rw [hbehind, List.take_left, token.injEq] at h
    obtain ⟨rfl, rfl⟩ := h
    have hflags : ∀ c ∈ tail.takeWhile isWordChar, isWordChar c = true :=
      List.all_eq_true.mp List.all_takeWhile
    rw [hword]
    constructor
    · simp only [Token.SpelledBy, String.toList_ofList]
      exact ⟨trivial, fun c hc => (hascii c hc).2, hflags⟩
    · simp only [List.mem_cons, List.mem_append]
      rintro c (rfl | hc | rfl | hc)
      · decide
      · exact (hascii c hc).1
      · decide
      · exact isAscii_of_isWordChar (hflags c hc)

/-- A slash that starts no comment. -/
theorem writtenAs_slash {previous : Option Token} (h : slash previous rest = .token t extra) :
    t.WrittenAs ('/' :: rest.take extra) := by
  obtain ⟨hline, hblock⟩ := head_of_slash h
  rw [slash_of_head hline hblock] at h
  split at h
  · exact writtenAs_regex h
  · split at h
    -- What is left are `/=` and the bare slash.
    · rename_i hassign
      obtain ⟨tail, rfl⟩ := List.head?_eq_some_iff.mp hassign
      rw [token.injEq] at h
      obtain ⟨rfl, rfl⟩ := h
      constructor
      · rfl
      · simp only [List.take_succ_cons, List.take_zero, List.mem_cons, List.not_mem_nil, or_false]
        rintro c (rfl | rfl) <;> decide
    · rw [token.injEq] at h
      obtain ⟨rfl, rfl⟩ := h
      constructor
      · rfl
      · simp only [List.take_zero, List.mem_singleton]
        rintro c rfl
        decide

/-- A word that means something is spelled as it is. -/
theorem text_of_ofText? {name : String} {word : Keyword} (h : Keyword.ofText? name = some word) :
    word.text = name := by
  have hfound := List.find?_some h
  exact eq_of_beq hfound

/-- Words are spelled by themselves, whether they mean something or not. -/
theorem writtenAs_word (h : word (c :: rest) = .token t extra) (hc : isWordChar c = true) :
    t.WrittenAs (c :: rest.take extra) := by
  unfold word at h
  dsimp only at h
  rw [List.takeWhile_cons_of_pos hc, List.length_cons, Nat.add_sub_cancel] at h
  -- The word ends at the first character that cannot stand in one.
  have hword : rest.take (rest.takeWhile isWordChar).length = rest.takeWhile isWordChar :=
    (List.prefix_iff_eq_take.mp (List.takeWhile_prefix isWordChar)).symm
  have hascii : ∀ d ∈ c :: rest.takeWhile isWordChar, isAscii d = true := by
    intro d hd
    apply isAscii_of_isWordChar
    rcases List.mem_cons.mp hd with rfl | hd
    · exact hc
    · exact List.all_eq_true.mp List.all_takeWhile d hd
  split at h
  · rename_i k hk
    rw [token.injEq] at h
    obtain ⟨rfl, rfl⟩ := h
    rw [hword]
    refine ⟨?_, hascii⟩
    rw [Token.SpelledBy, text_of_ofText? hk, String.toList_ofList]
  · rw [token.injEq] at h
    obtain ⟨rfl, rfl⟩ := h
    rw [hword]
    refine ⟨?_, hascii⟩
    rw [Token.SpelledBy, String.toList_ofList]

/-- A sign is listed under its spelling. -/
theorem writtenAs_of_mem_symbols {s : List Char × Token} (h : s ∈ symbols) : s.2.WrittenAs s.1 := by
  have hascii : ∀ s ∈ symbols, s.1.all isAscii = true := by decide
  refine ⟨?_, List.all_eq_true.mp (hascii s h)⟩
  simp only [symbols, List.mem_flatMap, List.mem_filter, List.mem_append, List.mem_map] at h
  obtain ⟨_, _, ⟨mark, _, rfl⟩ | ⟨mark, _, rfl⟩, _⟩ := h
  · rfl
  · rfl

theorem writtenAs_symbol {spelling : List Char} (h : symbol? (c :: rest) = some (spelling, t)) :
    t.WrittenAs (c :: rest.take (spelling.length - 1)) := by
  obtain ⟨word, tail, rfl, rfl, _⟩ := takesFront_symbol h
  have hwritten := writtenAs_of_mem_symbols (List.mem_of_find?_eq_some h)
  rw [List.length_cons, Nat.add_sub_cancel, List.take_left]
  exact hwritten

/-- Numbers are spelled by what stands for their value. -/
theorem writtenAs_number (h : number (c :: rest) = .token t extra)
    (hpos : 0 < (NumberForm.longest (c :: rest)).2) : t.WrittenAs (c :: rest.take extra) := by
  have htake : c :: rest.take ((NumberForm.longest (c :: rest)).2 - 1) =
      (c :: rest).take (NumberForm.longest (c :: rest)).2 := by
    obtain ⟨n, hn⟩ := Nat.exists_eq_add_of_lt hpos
    rw [hn, Nat.zero_add, Nat.add_sub_cancel, List.take_succ_cons]
  unfold number at h
  dsimp only at h
  split at h
  · rename_i t' htoken
    rw [token.injEq] at h
    obtain ⟨rfl, rfl⟩ := h
    rw [htake]
    exact NumberForm.writtenAs_of_token? (NumberForm.length_take_longest hpos) htoken
  · simp at h

/-- The text that a token is read from is its spelling. It does not start with white space. -/
theorem writtenAs_of_next {previous : Option Token} (h : next previous c rest = .token t extra) :
    t.WrittenAs (c :: rest.take extra) ∧ isLayout c = false := by
  unfold next at h
  by_cases hlayout : isLayout c = true
  · rw [if_pos hlayout] at h
    simp at h
  rw [if_neg hlayout] at h
  refine ⟨?_, Bool.not_eq_true _ ▸ hlayout⟩
  -- The tests of the lexer one by one, each with the spelling of its own tokens.
  by_cases hslash : c = '/'
  · subst hslash
    exact writtenAs_slash h
  rw [if_neg hslash] at h
  by_cases hquote : c = '\'' ∨ c = '"'
  · rw [if_pos hquote] at h
    exact writtenAs_string hquote h
  rw [if_neg hquote] at h
  by_cases hnumber : StartsNumber c rest
  · rw [if_pos hnumber] at h
    exact writtenAs_number h hnumber.longest_pos.1
  rw [if_neg hnumber] at h
  by_cases hstart : isWordStart c = true
  · rw [if_pos hstart] at h
    exact writtenAs_word h (Bool.and_eq_true_iff.mp hstart).1
  rw [if_neg hstart] at h
  split at h
  · rename_i spelling t' hsymbol
    rw [token.injEq] at h
    obtain ⟨rfl, rfl⟩ := h
    exact writtenAs_symbol hsymbol
  · simp at h

end Scan

end MeteredScript
