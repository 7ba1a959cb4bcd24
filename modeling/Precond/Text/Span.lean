/-!
# Spans

Every diagnostic points at a piece of text. A `Span` is a range of byte offsets into the UTF-8
form of that text, and `Spanned α` is a value together with the range it was read from. Text that
is quoted inside another text is read with offsets of its own; `Span.shift` moves such a range to
its place in the outer text.
-/

namespace Precond

/-- A range of byte offsets, from `start` up to but not including `stop`. -/
structure Span where
  /-- Offset of the first byte. -/
  start : Nat
  /-- Offset just past the last byte. -/
  stop : Nat
  deriving DecidableEq, Repr, Inhabited

namespace Span

/-- The empty range at one offset. -/
def point (offset : Nat) : Span := ⟨offset, offset⟩

/-- The least range that covers both. -/
def merge (a b : Span) : Span := ⟨min a.start b.start, max a.stop b.stop⟩

/-- The same range, `offset` bytes further on. -/
def shift (s : Span) (offset : Nat) : Span := ⟨s.start + offset, s.stop + offset⟩

/-- The two offsets with two points between them. -/
def render (s : Span) : String := s!"{s.start}..{s.stop}"

theorem merge_comm (a b : Span) : a.merge b = b.merge a := by
  simp [merge, Nat.min_comm, Nat.max_comm]

@[simp] theorem shift_zero (s : Span) : s.shift 0 = s := rfl

@[simp] theorem shift_shift (s : Span) (m n : Nat) : (s.shift m).shift n = s.shift (m + n) := by
  simp [shift, Nat.add_assoc]

end Span

/-- A value and the range of text it was read from. -/
structure Spanned (α : Type) where
  /-- The value. -/
  node : α
  /-- Where it stands. -/
  span : Span
  deriving DecidableEq, Repr

/-- The number of bytes that a list of characters takes in UTF-8. -/
def byteLength (cs : List Char) : Nat := cs.foldr (fun c n => c.utf8Size + n) 0

@[simp] theorem byteLength_nil : byteLength [] = 0 := rfl

@[simp] theorem byteLength_cons (c : Char) (cs : List Char) :
    byteLength (c :: cs) = c.utf8Size + byteLength cs := rfl

@[simp] theorem byteLength_append (a b : List Char) :
    byteLength (a ++ b) = byteLength a + byteLength b := by
  induction a with
  | nil => simp
  | cons c cs ih => simp [ih, Nat.add_assoc]

end Precond
