namespace MeteredScript.Text

/-! # Blank characters

The characters with the `White_Space` property, and trimming them from both ends of a text.
-/

/-- The ranges of code points beyond ASCII with the `White_Space` property, in increasing order, ends
included. -/
def wideBlankRanges : List (Nat × Nat) :=
  [(0x85, 0x85), (0xA0, 0xA0), (0x1680, 0x1680), (0x2000, 0x200A), (0x2028, 0x2029),
   (0x202F, 0x202F), (0x205F, 0x205F), (0x3000, 0x3000)]

/-- Whether a character is white space. -/
def isBlank (c : Char) : Bool :=
  if c.toNat < 0x80 then c = ' ' || ('\t' ≤ c && c ≤ '\r')
  else wideBlankRanges.any fun r => r.1 ≤ c.toNat && c.toNat ≤ r.2

/-- Drops the white space at the end. Text without any is left as it is. -/
def trimEnd (cs : List Char) : List Char :=
  if cs.getLast?.any isBlank then (cs.reverse.dropWhile isBlank).reverse else cs

/-- Drops the white space at both ends. -/
def trim (cs : List Char) : List Char := trimEnd (cs.dropWhile isBlank)

theorem trimEnd_eq (cs : List Char) : trimEnd cs = (cs.reverse.dropWhile isBlank).reverse := by
  unfold trimEnd
  split
  · rfl
  · rename_i h
    have hlast : cs.reverse.dropWhile isBlank = cs.reverse := by
      rw [← List.head?_reverse] at h
      cases hcs : cs.reverse with
      | nil => rfl
      | cons c rest =>
        rw [hcs] at h
        simp only [List.head?_cons, Option.any_some, Bool.not_eq_true] at h
        simp [h]
    rw [hlast, List.reverse_reverse]

/-- A text that starts with no white space still starts with the same character when trimmed. -/
theorem trim_cons {c : Char} (hc : isBlank c = false) (cs : List Char) :
    ∃ rest, trim (c :: cs) = c :: rest := by
  have hfront : (c :: cs).dropWhile isBlank = c :: cs := by simp [hc]
  rw [trim, hfront, trimEnd_eq, List.reverse_cons, List.dropWhile_append]
  split
  · exact ⟨[], by simp [hc]⟩
  · exact ⟨(cs.reverse.dropWhile isBlank).reverse, by simp⟩

end MeteredScript.Text
