/-
# Positions: lines and columns of byte offsets

A line index holds the offset of the first byte of every line.  The line of an
offset is the last one that starts at or before it, counted from one, and the
column is the distance in bytes from that start, counted from one.  Offsets past
the end of the text are on the last line.
-/
import Keel.Source.Span

namespace Keel

/-- A place in a text as a reader sees it; both counts start at one. -/
structure Position where
  line : Nat
  column : Nat
deriving DecidableEq, Repr

/-- Offsets at which the lines of a text start, in increasing order. -/
structure LineIndex where
  starts : List Nat
deriving Repr

namespace LineIndex

/-- Starts of the lines after the first, for text that begins at `offset`: the
byte after each newline. -/
def startsAfter : Nat → List Char → List Nat
  | _, [] => []
  | offset, c :: cs =>
    let next := offset + c.utf8Size
    if c = '\n' then next :: startsAfter next cs else startsAfter next cs

/-- The first line starts at 0, every other one after a newline. -/
def ofText (text : String) : LineIndex := ⟨0 :: startsAfter 0 text.toList⟩

/-- Where an offset is among the starts, or else where it would have to be put in. -/
def search (index : LineIndex) (offset : Nat) : Except Nat Nat :=
  let below := (index.starts.takeWhile (· < offset)).length
  if index.starts[below]? = some offset then .ok below else .error below

/-- The line, counted from zero, that starts at the offset, or else the one before the gap. -/
def lineAt (index : LineIndex) (offset : Nat) : Nat :=
  match index.search offset with
  | .ok line => line
  | .error next => next - 1

def position (index : LineIndex) (offset : Nat) : Position :=
  ⟨index.lineAt offset + 1, offset - index.starts.getD (index.lineAt offset) 0 + 1⟩

end LineIndex

end Keel
