namespace MeteredScript

/-! # Source ranges

A `Span` is a half-open range of byte offsets into the UTF-8 form of a source text.
-/

/-- The bytes from `start` up to, and not including, `stop`. -/
structure Span where
  start : Nat := 0
  stop : Nat := 0
deriving DecidableEq, Repr, Inhabited

namespace Span

/-- The range from the start of `s` to `stop`, and at least to the end of `s`. -/
def extendTo (s : Span) (stop : Nat) : Span :=
  ⟨s.start, max stop s.stop⟩

/-- The empty range at an offset. -/
def point (offset : Nat) : Span := ⟨offset, offset⟩

def text (s : Span) : String := s!"{s.start}..{s.stop}"

@[simp] theorem extendTo_start (s : Span) (stop : Nat) : (s.extendTo stop).start = s.start := rfl

@[simp] theorem extendTo_stop (s : Span) (stop : Nat) : (s.extendTo stop).stop = max stop s.stop := rfl

end Span

end MeteredScript
