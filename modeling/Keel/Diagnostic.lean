/-
# Diagnostics: what is said about a program

A diagnostic is a message about a span of a file, sometimes with a help text.
A bag of them is shown sorted by file, start, stop and message, and neighbours
that say the same are shown once.

| shown as | when |
| --- | --- |
| `path:line:column: message` | the text of the file is at hand |
| `path@start: message` | otherwise |
-/
import Keel.Source.Path
import Keel.Source.Position

namespace Keel

/-- A problem at one place, as it is told to the user. -/
structure Diagnostic where
  path : SourcePath
  span : Span
  message : String
  help : Option String := none
deriving DecidableEq, Repr

namespace Diagnostic

/-- The order of a report: file, start, stop, message. -/
def order : Diagnostic → Diagnostic → Ordering :=
  compareLex (fun a b => a.path.order b.path)
    (compareLex (compareOn (·.span.start))
      (compareLex (compareOn (·.span.stop)) (compareOn (·.message))))

/-- Whether two diagnostics say the same thing about the same place. -/
def same (a b : Diagnostic) : Bool :=
  a.path.same b.path && a.span == b.span && a.message == b.message && a.help == b.help

/-- Keeps the first of each run of neighbours that say the same. -/
def mergeNeighbours : List Diagnostic → List Diagnostic
  | [] => []
  | d :: ds =>
    match mergeNeighbours ds with
    | [] => [d]
    | e :: es => if d.same e then d :: es else d :: e :: es

def sorted (bag : List Diagnostic) : List Diagnostic :=
  mergeNeighbours (bag.mergeSort fun a b => (order a b).isLE)

/-- `path@start: message`. -/
def brief (d : Diagnostic) : String :=
  d.path.text ++ "@" ++ toString d.span.start ++ ": " ++ d.message

/-- `path:line:column: message`; a start past the end of the text is shown at its end. -/
def located (d : Diagnostic) (text : String) : String :=
  let at_ := (LineIndex.ofText text).position (min d.span.start text.utf8ByteSize)
  d.path.text ++ ":" ++ toString at_.line ++ ":" ++ toString at_.column ++ ": " ++ d.message

end Diagnostic

/-- A file handed to the compiler: its path below the source root and its text. -/
structure SourceFile where
  path : SourcePath
  text : String
deriving DecidableEq, Repr

namespace SourceFile

/-- The first file with the given path, however that is spelled. -/
def find? (files : List SourceFile) (path : SourcePath) : Option SourceFile :=
  files.find? (·.path.same path)

end SourceFile

/-- A diagnostic with its line and column when its file is among `files`. -/
def Diagnostic.plain (d : Diagnostic) (files : List SourceFile) : String :=
  match SourceFile.find? files d.path with
  | some file => d.located file.text
  | none => d.brief

end Keel
