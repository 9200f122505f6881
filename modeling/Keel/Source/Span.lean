/-
# Spans: byte ranges of a source text

Every token, tree node and complaint carries the byte range `[start, stop)` it was
read from.  Offsets count UTF-8 bytes, not characters.
-/

namespace Keel

/-- The bytes `[start, stop)` of one source text. -/
structure Span where
  start : Nat
  stop : Nat
deriving DecidableEq, Repr, Inhabited

namespace Span

/-- The empty span at the front of a text. -/
def zero : Span := ⟨0, 0⟩

/-- Bytes covered; a span written backwards covers none. -/
def length (s : Span) : Nat := s.stop - s.start

def isEmpty (s : Span) : Bool := s.length == 0

/-- The least span that holds both. -/
def cover (s t : Span) : Span := ⟨min s.start t.start, max s.stop t.stop⟩

end Span

/-- Bytes that the UTF-8 form of a list of characters takes. -/
def byteLength : List Char → Nat
  | [] => 0
  | c :: cs => c.utf8Size + byteLength cs

@[simp] theorem byteLength_append (a b : List Char) :
    byteLength (a ++ b) = byteLength a + byteLength b := by
  induction a with
  | nil => simp [byteLength]
  | cons c a ih => simp [byteLength, ih, Nat.add_assoc]

end Keel
