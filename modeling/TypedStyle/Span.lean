/-!
# Spans

A span is a stretch of the source, given by the byte positions of its two ends.
-/

namespace TypedStyle

/-- A stretch of the source from byte `start` up to, not including, byte `stop`. -/
structure Span where
  /-- Byte position of the first byte. -/
  start : Nat
  /-- Byte position after the last byte. -/
  stop : Nat
deriving DecidableEq

namespace Span

/-- The empty span at the beginning of the source. -/
def zero : Span := ⟨0, 0⟩

/-- The least span that covers both. -/
def merge (a b : Span) : Span :=
  ⟨min a.start b.start, max a.stop b.stop⟩

theorem merge_comm (a b : Span) : a.merge b = b.merge a := by
  simp [merge, Nat.min_comm, Nat.max_comm]

theorem merge_assoc (a b c : Span) : (a.merge b).merge c = a.merge (b.merge c) := by
  simp [merge, Nat.min_assoc, Nat.max_assoc]

@[simp]
theorem merge_self (a : Span) : a.merge a = a := by
  simp [merge]

end Span

end TypedStyle
