import MeteredScript.Proofs.Literals

namespace MeteredScript

/-! # Numbers and the words behind them

A number without a point or a sign is made of the characters that words are made of. If a word
follows it, both are read as one word. A number with a point or a sign is cut off where the word
starts: `1.5abc` is the number `1.5` and the name `abc`. Main statement: `word_behind_number_iff`,
which says of each number of a source text when a word is read right behind it.
-/

open Text

/-- Number literals, with an `n` or without. -/
def Token.isNumber : Token → Bool
  | .number _ | .bigInt _ => true
  | _ => false

def Token.isWord : Token → Bool
  | .ident _ | .keyword _ => true
  | _ => false

/-- A point or a sign: what stands in numbers, but not in words. -/
def isPointOrSign (c : Char) : Bool := c = '.' || c = '+' || c = '-'

variable {c : Char} {lexeme : Lexeme} {lexemes : List Lexeme}

theorem isWordChar_of_isPointOrSign (hc : isPointOrSign c = true) : isWordChar c = false := by
  simp only [isPointOrSign, Bool.or_eq_true, decide_eq_true_eq] at hc
  rcases hc with (rfl | rfl) | rfl <;> decide

/-! ## What numbers are made of -/

/-- An exponent is made of characters of words, apart from its sign. -/
theorem ExponentPart.isWordChar_or_isPointOrSign (e : ExponentPart) :
    ∀ c ∈ e.chars, isWordChar c = true ∨ isPointOrSign c = true := by
  have hmark : isWordChar e.mark = true := by
    rcases e.mark_eq with hmark | hmark <;> rw [hmark] <;> decide
  have hsign : e.sign.chars.all isPointOrSign = true := by
    cases e.sign <;> decide
  unfold ExponentPart.chars
  rw [List.forall_mem_cons, List.forall_mem_append]
  exact ⟨.inl hmark, fun c hc => .inr (List.all_eq_true.mp hsign c hc),
    fun c hc => .inl (isWordChar_of_isDigit (e.isDigit c hc))⟩

namespace NumberForm

variable {text : List Char} {form : NumberForm} {t : Token}

/-- A number with a radix letter is made of characters of words. -/
theorem isWordChar_of_radixForm {lower upper : Char} {isTaken : Char → Bool} {radix : Nat}
    {fault : LexFault} (hradix : RadixForm form lower upper isTaken radix fault) (hne : text ≠ [])
    (hform : form.length text = text.length) {d : Decimal}
    (h : form.token? text = .ok (.number d)) : ∀ c ∈ text, isWordChar c = true := by
  obtain ⟨letter, digits, rfl, hletter, -⟩ :=
    exists_of_radixLength hne ((hradix.length_eq _).symm.trans hform)
  rw [hradix.token?_eq, map_number_eq_ok_iff] at h
  have hdigits := (radixValue?_eq_ok_iff.mp h).1
  have hword : isWordChar letter = true := by
    cases hradix <;> rcases hletter with rfl | rfl <;> decide
  simp only [List.forall_mem_cons]
  exact ⟨by decide, hword, fun c hc => isWordChar_of_isDigitOf (hdigits c hc)⟩

/-- So is an integer that is marked as one. -/
theorem isWordChar_of_bigInt (hne : text ≠ []) (hform : bigInt.length text = text.length) :
    ∀ c ∈ text, isWordChar c = true := by
  simp only [length] at hform
  split at hform
  · rename_i hletter
    obtain ⟨tail, htail⟩ := List.head?_eq_some_iff.mp hletter.2
    have hlength := congrArg List.length htail
    rw [List.length_drop, List.length_cons] at hlength
    obtain rfl : tail = [] := List.eq_nil_of_length_eq_zero (by omega)
    rw [← takeWhile_append_drop isDigit text, htail, List.forall_mem_append]
    refine ⟨fun c hc => ?_, List.forall_mem_singleton.mpr (by decide)⟩
    exact isWordChar_of_isDigit (List.all_eq_true.mp List.all_takeWhile c hc)
  · exact absurd (List.eq_nil_of_length_eq_zero hform.symm) hne

theorem exists_of_map_number {value : Except LexFault Decimal}
    (h : value.map Token.number = .ok t) : ∃ d, t = .number d := by
  cases value with
  | error f => cases h
  | ok d =>
    cases h
    exact ⟨d, rfl⟩

theorem form_of_isWord (h : form.token? text = .ok t) (ht : t.isWord = true) : form = word := by
  cases form with
  | brokenExponent => cases h
  | decimal | hex | octal | binary =>
    obtain ⟨d, rfl⟩ := exists_of_map_number h
    cases ht
  | bigInt =>
    unfold token? at h
    dsimp only at h
    split at h <;> cases h
    cases ht
  | word => rfl

theorem decimal_or_isWordChar (hne : text ≠ []) (hform : form.length text = text.length)
    (h : form.token? text = .ok t) (ht : t.isNumber = true) :
    form = decimal ∨ ∀ c ∈ text, isWordChar c = true := by
  cases form with
  | brokenExponent => cases h
  | decimal | hex | octal | binary =>
    obtain ⟨d, rfl⟩ := exists_of_map_number h
    rcases decimal_or_radixForm h with hdecimal | ⟨_, _, _, _, _, hradix⟩
    · exact .inl hdecimal
    · exact .inr (isWordChar_of_radixForm hradix hne hform h)
  | bigInt => exact .inr (isWordChar_of_bigInt hne hform)
  | word =>
    cases h
    cases ht

/-- A decimal is made of characters of words, apart from points and signs. -/
theorem isWordChar_or_isPointOrSign_of_decimal (hne : text ≠ [])
    (hform : decimal.length text = text.length) :
    ∀ c ∈ text, isWordChar c = true ∨ isPointOrSign c = true := by
  obtain ⟨n, -, rfl⟩ := exists_of_length_decimal hne hform
  unfold Numeral.unsignedChars
  rw [List.forall_mem_append]
  refine ⟨n.mantissa.forall_mem_chars (fun _ hc => .inl (isWordChar_of_isDigit hc)) (.inr rfl), ?_⟩
  cases n.exponent? with
  | none => simp
  | some e => exact e.isWordChar_or_isPointOrSign

theorem isWordChar_or_isPointOrSign (hne : text ≠ []) (hform : form.length text = text.length)
    (h : form.token? text = .ok t) (ht : t.isNumber = true) :
    ∀ c ∈ text, isWordChar c = true ∨ isPointOrSign c = true := by
  rcases decimal_or_isWordChar hne hform h ht with rfl | hall
  · exact isWordChar_or_isPointOrSign_of_decimal hne hform
  · exact fun c hc => .inl (hall c hc)

/-- A text that starts with a digit is read on as a word, as long as it goes on like one. -/
theorem length_lt_longest {c d : Char} (hc : isDigit c = true)
    (htext : ∀ x ∈ c :: text, isWordChar x = true) (hd : isWordChar d = true) (tail : List Char) :
    (c :: text).length < (longest (c :: text ++ d :: tail)).2 := by
  have hword : word.length (c :: text ++ d :: tail) =
      (c :: text).length + countWhile isWordChar (d :: tail) := by
    rw [length_word_eq, ← countWhile_append_of_all htext]
    exact if_pos hc
  have hpos : 0 < countWhile isWordChar (d :: tail) := by
    rw [countWhile, List.takeWhile_cons_of_pos hd]
    exact Nat.succ_pos _
  have hle := length_le_longest word (c :: text ++ d :: tail)
  omega

end NumberForm

/-! ## Where decimals end -/

/-- The text does not go on with a digit. -/
def NoDigit (tail : List Char) : Prop := ∀ c ∈ tail.head?, isDigit c = false

/-- A length that is not broken off in front of a digit. -/
def EndsDigits (length : List Char → Nat) : Prop :=
  ∀ cs, length cs ≠ 0 → NoDigit (cs.drop (length cs))

theorem noDigit_drop_countWhile (cs : List Char) : NoDigit (cs.drop (countWhile isDigit cs)) := by
  have hsplit : cs.takeWhile isDigit ++ cs.drop (countWhile isDigit cs) =
      cs.takeWhile isDigit ++ cs.dropWhile isDigit := by
    rw [takeWhile_append_drop, List.takeWhile_append_dropWhile]
  have hdrop := List.append_cancel_left hsplit
  intro c hc
  rw [hdrop] at hc
  have hhead := List.head?_dropWhile_not isDigit cs
  rw [hc] at hhead
  simpa using hhead

namespace EndsDigits

variable {f g : List Char → Nat} {p : Char → Bool}

theorem digits : EndsDigits (countWhile isDigit) := fun cs _ => noDigit_drop_countWhile cs

/-- No digit follows two lengths in a row if none follows either. -/
theorem followed (hf : EndsDigits f) (hg : EndsDigits g) : EndsDigits (followedLength f g) := by
  intro cs hpos
  unfold followedLength at hpos ⊢
  split at hpos
  · exact absurd rfl hpos
  · rename_i hfirst
    rw [if_neg hfirst, ← List.drop_drop]
    -- the second length may be zero, and then the first one ends here
    by_cases hsecond : g (cs.drop (f cs)) = 0
    · rw [hsecond]
      exact hf cs hfirst
    · exact hg _ hsecond

/-- There may be no digits behind a point. -/
theorem followed_digits : EndsDigits (followedLength f (countWhile isDigit)) := by
  intro cs hpos
  unfold followedLength at hpos ⊢
  split at hpos
  · exact absurd rfl hpos
  · rw [if_neg ‹_›, ← List.drop_drop]
    exact noDigit_drop_countWhile _

theorem chosen (hf : EndsDigits f) (hg : EndsDigits g) : EndsDigits (chosenLength p f g) := by
  intro cs hpos
  unfold chosenLength at hpos ⊢
  split at hpos
  · rw [if_pos ‹_›]
    exact hf cs hpos
  · rw [if_neg ‹_›]
    exact hg cs hpos

theorem marked (hg : EndsDigits g) : EndsDigits (markedLength p g) := by
  intro cs hpos
  unfold markedLength bothLength at hpos ⊢
  split at hpos
  · exact absurd rfl hpos
  · rename_i hboth
    rw [if_neg hboth, ← List.drop_drop]
    exact hg _ fun hzero => hboth (.inr hzero)

end EndsDigits

namespace NumberForm

theorem endsDigits_mantissaLength : EndsDigits mantissaLength := by
  rw [mantissaLength_eq]
  exact EndsDigits.digits.marked.chosen (EndsDigits.digits.followed .followed_digits)

theorem endsDigits_exponentLength : EndsDigits exponentLength := by
  rw [exponentLength_eq, signedLength_eq]
  exact (EndsDigits.digits.marked.chosen .digits).marked

theorem endsDigits_decimal : EndsDigits decimal.length :=
  endsDigits_mantissaLength.followed endsDigits_exponentLength

end NumberForm

/-! ## Scanned numbers and words -/

namespace Scan

variable {c : Char} {rest : List Char} {extra : Nat} {previous : Option Token} {t : Token}

/-- What begins with a slash is neither a number nor a word. -/
theorem kind_of_slash (h : slash previous rest = .token t extra) :
    t.isNumber = false ∧ t.isWord = false := by
  obtain ⟨hline, hblock⟩ := head_of_slash h
  rw [slash_of_head hline hblock] at h
  split at h
  · unfold regex at h
    split at h <;> cases h
    exact ⟨rfl, rfl⟩
  · split at h <;> cases h <;> exact ⟨rfl, rfl⟩

/-- Neither are signs and punctuation. -/
theorem kind_of_symbol {cs spelling : List Char} (h : symbol? cs = some (spelling, t)) :
    t.isNumber = false ∧ t.isWord = false := by
  have hkinds : ∀ s ∈ symbols, s.2.isNumber = false ∧ s.2.isWord = false := by decide
  exact hkinds _ (List.mem_of_find?_eq_some h)

/-- Numbers and words are read by their own rules. -/
theorem number_or_word_of_next (h : next previous c rest = .token t extra) :
    (StartsNumber c rest ∧ number (c :: rest) = .token t extra) ∨
      (isWordStart c = true ∧ word (c :: rest) = .token t extra) ∨
      (t.isNumber = false ∧ t.isWord = false) := by
  unfold next at h
  -- The tests of the lexer one by one; only two of them lead to a number or a word.
  by_cases hlayout : isLayout c = true
  · rw [if_pos hlayout] at h
    cases h
  rw [if_neg hlayout] at h
  by_cases hslash : c = '/'
  · rw [if_pos hslash] at h
    exact .inr (.inr (kind_of_slash h))
  rw [if_neg hslash] at h
  by_cases hquote : c = '\'' ∨ c = '"'
  · rw [if_pos hquote] at h
    unfold string at h
    split at h <;> cases h
    exact .inr (.inr ⟨rfl, rfl⟩)
  rw [if_neg hquote] at h
  by_cases hnumber : StartsNumber c rest
  · rw [if_pos hnumber] at h
    exact .inl ⟨hnumber, h⟩
  rw [if_neg hnumber] at h
  by_cases hstart : isWordStart c = true
  · rw [if_pos hstart] at h
    exact .inr (.inl ⟨hstart, h⟩)
  rw [if_neg hstart] at h
  split at h
  · rename_i spelling t' hsymbol
    cases h
    exact .inr (.inr (kind_of_symbol hsymbol))
  · cases h

theorem exists_of_word (cs : List Char) :
    ∃ t extra, word cs = .token t extra ∧ t.isWord = true := by
  unfold word
  dsimp only
  split <;> exact ⟨_, _, rfl, rfl⟩

/-- Where a word begins, a word is read. -/
theorem next_word (hc : isWordStart c = true) (previous : Option Token) (rest : List Char) :
    next previous c rest = word (c :: rest) := by
  obtain ⟨hword, hdigit⟩ : isWordChar c = true ∧ isDigit c = false := by
    simpa [isWordStart] using hc
  -- the rules that come first are for characters that no word has
  have hne (d : Char) (hd : isWordChar d = false) : c ≠ d := by
    rintro rfl
    exact Bool.false_ne_true (hd.symm.trans hword)
  have hlayout : isLayout c ≠ true := by
    intro hlayout
    have hspared : SparesBreaks isWordChar := by decide
    have hbreak : isBreak c = true := by simp [isBreak, hlayout]
    exact Bool.false_ne_true ((hspared.of_isBreak hbreak).symm.trans hword)
  have hnumber : ¬StartsNumber c rest := by
    rintro (hstart | ⟨hpoint, -⟩)
    · exact Bool.false_ne_true (hdigit.symm.trans hstart)
    · exact hne '.' (by decide) hpoint
  unfold next
  rw [if_neg hlayout, if_neg (hne '/' (by decide)),
    if_neg (not_or.mpr ⟨hne _ (by decide), hne _ (by decide)⟩), if_neg hnumber, if_pos hc]

theorem number_of_next (h : next previous c rest = .token t extra) (ht : t.isNumber = true) :
    StartsNumber c rest ∧ number (c :: rest) = .token t extra := by
  rcases number_or_word_of_next h with hnumber | ⟨-, hword⟩ | ⟨hno, -⟩
  · exact hnumber
  · obtain ⟨t', _, hword', ht'⟩ := exists_of_word (c :: rest)
    cases hword.symm.trans hword'
    cases t with
    | number | bigInt => cases ht'
    | _ => cases ht
  · exact absurd ht (by simp [hno])

theorem eq_longest_of_number {cs : List Char} (h : number cs = .token t extra) :
    (NumberForm.longest cs).1.token? (cs.take (NumberForm.longest cs).2) = .ok t ∧
      extra = (NumberForm.longest cs).2 - 1 := by
  unfold number at h
  dsimp only at h
  split at h <;> cases h
  exact ⟨‹_›, rfl⟩

/-- Words start with the characters that they are made of. -/
theorem isWordChar_of_next (h : next previous c rest = .token t extra) (ht : t.isWord = true) :
    isWordChar c = true := by
  rcases number_or_word_of_next h with ⟨hstart, hnumber⟩ | ⟨hstart, -⟩ | ⟨-, hno⟩
  · rcases hstart with hdigit | ⟨rfl, hdigit⟩
    · exact isWordChar_of_isDigit hdigit
    · -- no word starts with a point
      have hpos := (StartsNumber.longest_pos (.inr ⟨rfl, hdigit⟩)).1
      have hform := NumberForm.length_longest hpos
      rw [NumberForm.form_of_isWord (eq_longest_of_number hnumber).1 ht] at hform
      exact absurd hform (Nat.ne_of_lt hpos)
  · exact (Bool.and_eq_true_iff.mp hstart).1
  · exact absurd ht (by simp [hno])

theorem longest_of_next (h : next previous c rest = .token t extra) (ht : t.isNumber = true) :
    StartsNumber c rest ∧ ∃ form, NumberForm.longest (c :: rest) = (form, extra + 1) ∧
      form.length (c :: rest.take extra) = (c :: rest.take extra).length ∧
      form.token? (c :: rest.take extra) = .ok t := by
  obtain ⟨hstart, hnumber⟩ := number_of_next h ht
  obtain ⟨htoken, hextra⟩ := eq_longest_of_number hnumber
  have hpos := hstart.longest_pos.1
  have hlength : (NumberForm.longest (c :: rest)).2 = extra + 1 := by omega
  have hform := NumberForm.length_take_longest hpos
  rw [hlength, List.take_succ_cons] at htoken hform
  exact ⟨hstart, (NumberForm.longest (c :: rest)).1, Prod.ext rfl hlength, hform, htoken⟩

/-- A number in front of a letter or a digit has a point or a sign. -/
theorem exists_isPointOrSign {d : Char} {tail : List Char}
    (h : next previous c rest = .token t extra) (ht : t.isNumber = true)
    (hrest : rest.drop extra = d :: tail) (hd : isWordChar d = true) :
    ∃ m ∈ c :: rest.take extra, isPointOrSign m = true := by
  obtain ⟨hstart, form, hlongest, hform, htoken⟩ := longest_of_next h ht
  by_contra hnone
  have hall : ∀ m ∈ c :: rest.take extra, isWordChar m = true := by
    intro m hm
    have hkind := NumberForm.isWordChar_or_isPointOrSign (by simp) hform htoken ht m hm
    exact hkind.resolve_right fun hpoint => hnone ⟨m, hm, hpoint⟩
  have hc : isDigit c = true := by
    refine hstart.resolve_right fun hpoint => hnone ⟨c, List.mem_cons_self, ?_⟩
    rw [hpoint.1]
    rfl
  -- the word that goes on with `d` is longer than the number, which was to be the longest form
  have hlonger := NumberForm.length_lt_longest hc hall hd tail
  rw [← hrest, List.cons_append, List.take_append_drop, hlongest, List.length_cons,
    List.length_take] at hlonger
  have hbehind := congrArg List.length hrest
  rw [List.length_drop, List.length_cons] at hbehind
  omega

/-- A number is not broken off in front of a digit. -/
theorem isDigit_behind_number {d : Char} {tail : List Char}
    (h : next previous c rest = .token t extra) (ht : t.isNumber = true)
    (hrest : rest.drop extra = d :: tail) : isDigit d = false := by
  obtain ⟨-, form, hlongest, hform, htoken⟩ := longest_of_next h ht
  by_contra hdigit
  have hd : isDigit d = true := by simpa using hdigit
  -- there is a point or a sign in front of the digit, so the number is a decimal
  obtain ⟨m, hm, hpoint⟩ := exists_isPointOrSign h ht hrest (isWordChar_of_isDigit hd)
  have hdecimal := (NumberForm.decimal_or_isWordChar (by simp) hform htoken ht).resolve_right
    fun hall => Bool.false_ne_true ((isWordChar_of_isPointOrSign hpoint).symm.trans (hall m hm))
  have hpos : 0 < (NumberForm.longest (c :: rest)).2 := by
    rw [hlongest]
    exact Nat.succ_pos extra
  have hend := NumberForm.length_longest hpos
  rw [hlongest, hdecimal] at hend
  have hstops := NumberForm.endsDigits_decimal (c :: rest) (by rw [hend]; exact Nat.succ_ne_zero _)
  rw [hend, List.drop_succ_cons, hrest] at hstops
  exact Bool.false_ne_true ((hstops d rfl).symm.trans hd)

end Scan

/-! ## Places of numbers and words -/

theorem eq_of_byteLength_eq {front front' rest rest' : List Char}
    (h : front ++ rest = front' ++ rest') (hsize : byteLength front = byteLength front') :
    front = front' ∧ rest = rest' := by
  -- one of the fronts is the other one with a piece behind it, which takes up no bytes
  rcases List.append_eq_append_iff.mp h with ⟨middle, rfl, rfl⟩ | ⟨middle, rfl, rfl⟩
  · rw [byteLength_append] at hsize
    obtain rfl : middle = [] := eq_nil_of_byteLength (by omega)
    simp
  · rw [byteLength_append] at hsize
    obtain rfl : middle = [] := eq_nil_of_byteLength (by omega)
    simp

/-- Where a token is read: behind `front`, from `c` and `extra` characters of the `rest`. The lexer
goes on behind them. -/
structure ReadAt (source : List Char) (lexemes : List Lexeme) (lexeme : Lexeme)
    (front : List Char) (c : Char) (rest : List Char) (extra : Nat) : Prop where
  source_eq : source = front ++ c :: rest
  span : lexeme.span = ⟨byteLength front, byteLength front + byteLength (c :: rest.take extra)⟩
  next : ∃ previous, Scan.next previous c rest = .token lexeme.token extra
  goes_on : ∃ read position, position.offset = lexeme.span.stop ∧
    tokenizeFrom (lexeme :: read) position (rest.drop extra) = .ok lexemes

/-- Every token was read at some place, or was there before. -/
theorem readAt_of_tokenizeFrom {read : List Lexeme} {position : Position} {cs : List Char}
    (h : tokenizeFrom read position cs = .ok lexemes) (front : List Char)
    (hfront : byteLength front = position.offset) (hmem : lexeme ∈ lexemes) :
    lexeme ∈ read ∨
      ∃ before c rest extra, ReadAt (front ++ cs) lexemes lexeme before c rest extra := by
  -- a step moves what it reads from `cs` to the end of `front`; their sum stays the whole text
  fun_induction tokenizeFrom read position cs generalizing front with
  | case1 read position =>
    cases h
    exact .inl (List.mem_reverse.mp hmem)
  | case2 read position c rest f extent hnext => cases h
  | case3 read position c rest extra hnext ahead ih =>
    have hrest : ahead.2 = rest.drop extra := Position.advance_snd _ _ _
    have hoffset := Position.offset_behind hfront c extra rest
    have hlater := ih h (front ++ c :: rest.take extra) ((byteLength_append _ _).trans hoffset.symm)
    rwa [hrest, List.append_assoc, List.cons_append, List.take_append_drop] at hlater
  | case4 read position c rest t extra hnext ahead lexeme' ih =>
    have hrest : ahead.2 = rest.drop extra := Position.advance_snd _ _ _
    have hoffset := Position.offset_behind hfront c extra rest
    have hlater := ih h (front ++ c :: rest.take extra) ((byteLength_append _ _).trans hoffset.symm)
    rw [hrest, List.append_assoc, List.cons_append, List.take_append_drop] at hlater
    rcases hlater with hread | hlater
    · rcases List.mem_cons.mp hread with rfl | hread
      -- the token that this step reads
      · refine .inr ⟨front, c, rest, extra, rfl, ?_, ⟨_, hnext⟩, read, ahead.1, rfl, ?_⟩
        · rw [← hoffset, hfront]
        · rwa [hrest] at h
      · exact .inl hread
    · exact .inr hlater

/-- Every token of a text was read at some place in it. -/
theorem exists_readAt {source : String} (h : tokenize source = .ok lexemes)
    (hmem : lexeme ∈ lexemes) :
    ∃ front c rest extra, ReadAt source.toList lexemes lexeme front c rest extra :=
  (readAt_of_tokenizeFrom h [] rfl hmem).resolve_left List.not_mem_nil

theorem mem_of_tokenizeFrom {read : List Lexeme} {position : Position} {cs : List Char}
    (h : tokenizeFrom read position cs = .ok lexemes) (hread : lexeme ∈ read) :
    lexeme ∈ lexemes := by
  fun_induction tokenizeFrom read position cs with
  | case1 read position =>
    cases h
    exact List.mem_reverse.mpr hread
  | case2 read position c rest f extent hnext => cases h
  | case3 read position c rest extra hnext ahead ih => exact ih h hread
  | case4 read position c rest t extra hnext ahead lexeme' ih =>
    exact ih h (List.mem_cons_of_mem _ hread)

/-- The text goes on with a letter, a digit, `_` or `$` behind the range. -/
def Span.RunsOn (span : Span) (source : List Char) : Prop :=
  ∃ front c rest, source = front ++ c :: rest ∧ byteLength front = span.stop ∧ isWordChar c = true

namespace ReadAt

variable {source : List Char} {lexemes : List Lexeme} {lexeme : Lexeme} {front rest : List Char}
  {c : Char} {extra : Nat}

/-- The text around a token: what is in front of it, the token and what is behind it. -/
theorem source_split (h : ReadAt source lexemes lexeme front c rest extra) :
    source = front ++ (c :: rest.take extra ++ rest.drop extra) := by
  rw [h.source_eq, List.cons_append, List.take_append_drop]

/-- The range of a token holds the characters that it was read from. -/
theorem wordIn_eq (h : ReadAt source lexemes lexeme front c rest extra) :
    lexeme.wordIn source = c :: rest.take extra := by
  unfold Lexeme.wordIn
  rw [h.source_split, h.span, Span.charsIn_word]

/-- A token runs on if the next character is one of words. -/
theorem runsOn_iff (h : ReadAt source lexemes lexeme front c rest extra) :
    lexeme.span.RunsOn source ↔
      ∃ d tail, rest.drop extra = d :: tail ∧ isWordChar d = true := by
  have hstop : lexeme.span.stop = byteLength (front ++ c :: rest.take extra) := by
    rw [h.span, byteLength_append]
  have hsource := h.source_split
  rw [← List.append_assoc] at hsource
  constructor
  · rintro ⟨front', d, tail, hsplit, hsize, hd⟩
    have hsame := eq_of_byteLength_eq (hsource.symm.trans hsplit) (hstop.symm.trans hsize.symm)
    exact ⟨d, tail, hsame.2, hd⟩
  · rintro ⟨d, tail, hbehind, hd⟩
    exact ⟨_, d, tail, hbehind ▸ hsource, hstop.symm, hd⟩

theorem exists_word_behind (h : ReadAt source lexemes lexeme front c rest extra) {d : Char}
    {tail : List Char} (hbehind : rest.drop extra = d :: tail) (hd : isWordStart d = true) :
    ∃ word ∈ lexemes, word.token.isWord = true ∧ word.span.start = lexeme.span.stop := by
  obtain ⟨read, position, hposition, hread⟩ := h.goes_on
  obtain ⟨t, length, hword, ht⟩ := Scan.exists_of_word (d :: tail)
  rw [hbehind, tokenizeFrom, Scan.next_word hd, hword] at hread
  exact ⟨_, mem_of_tokenizeFrom hread List.mem_cons_self, ht, hposition⟩

end ReadAt

/-- A word is read right behind a number if and only if a letter follows there. Then the number has
a point or a sign: other numbers are read as one word with what follows. -/
theorem word_behind_number_iff {source : String} {lexemes : List Lexeme}
    (h : tokenize source = .ok lexemes) {number : Lexeme} (hmem : number ∈ lexemes)
    (hnumber : number.token.isNumber = true) :
    ((∃ word ∈ lexemes, word.token.isWord = true ∧ word.span.start = number.span.stop) ↔
      number.span.RunsOn source.toList) ∧
    (number.span.RunsOn source.toList →
      ∃ c ∈ number.wordIn source.toList, isPointOrSign c = true) := by
  obtain ⟨front, c, rest, extra, hread⟩ := exists_readAt h hmem
  obtain ⟨previous, hnext⟩ := hread.next
  rw [hread.wordIn_eq, hread.runsOn_iff]
  refine ⟨⟨?_, ?_⟩, ?_⟩
  · rintro ⟨word, hword, hkind, hstart⟩
    obtain ⟨front', c', rest', extra', hread'⟩ := exists_readAt h hword
    obtain ⟨previous', hnext'⟩ := hread'.next
    rw [← hread.runsOn_iff]
    -- the first character of the word stands where the number ends
    refine ⟨front', c', rest', hread'.source_eq, ?_, Scan.isWordChar_of_next hnext' hkind⟩
    rw [← hstart, hread'.span]
  · rintro ⟨d, tail, hdrop, hd⟩
    have hdigit := Scan.isDigit_behind_number hnext hnumber hdrop
    exact hread.exists_word_behind hdrop (by simp [isWordStart, hd, hdigit])
  · rintro ⟨d, tail, hdrop, hd⟩
    exact Scan.exists_isPointOrSign hnext hnumber hdrop hd

/-- Two numbers, of which the second runs into a name. -/
def sevenAndHalf : String := "7+1.5abc"

def sevenAndHalfLexemes : List Lexeme :=
  [⟨.number (.ofInt 7), ⟨0, 1⟩, 1⟩, ⟨.sign (.binary (.arith .add)), ⟨1, 2⟩, 1⟩,
    ⟨.number ⟨15 * 10 ^ 17⟩, ⟨2, 5⟩, 1⟩, ⟨.ident "abc", ⟨5, 8⟩, 1⟩]

/-- The seven ends in front of a sign, the other number is followed by a word. -/
theorem word_behind_number_sevenAndHalf :
    tokenize sevenAndHalf = .ok sevenAndHalfLexemes ∧
    ¬Span.RunsOn ⟨0, 1⟩ sevenAndHalf.toList ∧ Span.RunsOn ⟨2, 5⟩ sevenAndHalf.toList ∧
    ∃ c ∈ Span.charsIn ⟨2, 5⟩ 0 sevenAndHalf.toList, isPointOrSign c = true := by
  have hread : tokenize sevenAndHalf = .ok sevenAndHalfLexemes :=
    eq_ok_of_toOption (by decide +kernel)
  have hseven : ⟨.number (.ofInt 7), ⟨0, 1⟩, 1⟩ ∈ sevenAndHalfLexemes := by decide
  have hhalf : ⟨.number ⟨15 * 10 ^ 17⟩, ⟨2, 5⟩, 1⟩ ∈ sevenAndHalfLexemes := by decide
  have hruns := (word_behind_number_iff hread hhalf rfl).1.mp (by decide)
  refine ⟨hread, ?_, hruns, (word_behind_number_iff hread hhalf rfl).2 hruns⟩
  exact mt (word_behind_number_iff hread hseven rfl).1.mpr (by decide)

/-- A number with a point is split from the letters behind it. -/
theorem number_splits_from_word :
    ∃ number word, tokenize "1.5abc" = .ok [number, word] ∧ number.token.isNumber = true ∧
      word.token.isWord = true ∧ word.span.start = number.span.stop := by
  refine ⟨⟨.number ⟨15 * 10 ^ 17⟩, ⟨0, 3⟩, 1⟩, ⟨.ident "abc", ⟨3, 6⟩, 1⟩, ?_, rfl, rfl, rfl⟩
  exact eq_ok_of_toOption (by decide +kernel)

end MeteredScript
