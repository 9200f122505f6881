/-
# Files that are accepted and lowered

What is found out about a program by running the compiler on its files holds of the
program: a property of the result that can be decided is decided together with the run.

A text that is written out in a proof is better taken as its characters, which are there
as they stand, than decoded from its bytes: `accepted_of_chars` runs the compiler on these.
-/
import Keel.Sources
import Keel.Lowering.Program
import Keel.Proofs.Syntax.Lexemes

namespace Keel.Lowering

open Typing

/-- The files make up a program, and it is lowered. -/
structure Accepted (files : List SourceFile) (program : CheckedProgram) (ir : Ir.Program) : Prop where
  checked : SourceFile.check files = .ok program
  lowered : lowerProgram program none = .ok ir

/-- The program is there, it is lowered, and what comes out passes the test. -/
def passes {ε : Type} (test : CheckedProgram → Ir.Program → Bool) : Except ε CheckedProgram → Bool
  | .ok program =>
    match lowerProgram program none with
    | .ok ir => test program ir
    | .error _ => false
  | .error _ => false

theorem exists_of_passes {ε : Type} {test : CheckedProgram → Ir.Program → Bool} {r : Except ε CheckedProgram}
    (h : passes test r = true) :
    ∃ program ir, r = .ok program ∧ lowerProgram program none = .ok ir ∧ test program ir = true := by
  unfold passes at h
  split at h
  · split at h
    · exact ⟨_, _, rfl, ‹_›, h⟩
    · cases h
  · cases h

theorem accepted_of_passes (files : List SourceFile) (test : CheckedProgram → Ir.Program → Bool)
    (h : passes test (SourceFile.check files) = true) :
    ∃ program ir, Accepted files program ir ∧ test program ir = true := by
  obtain ⟨program, ir, hchecked, hlowered, htest⟩ := exists_of_passes h
  exact ⟨program, ir, ⟨hchecked, hlowered⟩, htest⟩

/-! ### Characters -/

/-- The modules of a program of one file, from the characters of the file and of the prelude, each
with the first unused number. -/
def readChars (path : SourcePath) (text prelude : List Char) :
    Option ((ModuleDef × NodeId) × ModuleDef × NodeId) :=
  match scanChars text, scanChars prelude with
  | .ok tokens, .ok more =>
    match ModuleDef.ofTokens path tokens 0 with
    | .ok (m, n) =>
      match ModuleDef.ofTokens Prelude.path more n with
      | .ok last => some ((m, n), last)
      | .error _ => none
    | .error _ => none
  | _, _ => none

theorem ok_bind {ε α β : Type} (a : α) (f : α → Except ε β) : (Except.ok a >>= f) = f a := rfl

section

variable {file : SourceFile} {text prelude : List Char} {m more : ModuleDef} {n n' : NodeId}
  (htext : String.ofList text = file.text) (hprelude : String.ofList prelude = Prelude.text)
  (h : readChars file.path text prelude = some ((m, n), more, n'))

include htext hprelude h

theorem read_of_readChars : SourceFile.readAll [file] 0 = ([m], n, []) ∧
    withPrelude Prelude.text [m] n = ([m, more], n') := by
  unfold readChars at h
  split at h
  · rename_i tokens later htokens hlater
    rw [← scan_ofList, htext] at htokens
    rw [← scan_ofList, hprelude] at hlater
    split at h
    · rename_i hm
      split at h
      · rename_i hmore
        cases h
        have hfile : ModuleDef.ofText file.path file.text 0 = .ok (m, n) := by
          rw [ModuleDef.ofText, htokens]
          exact hm
        have hprelude' : ModuleDef.ofText Prelude.path Prelude.text n = .ok (more, n') := by
          rw [ModuleDef.ofText, hlater]
          exact hmore
        constructor
        · rw [SourceFile.readAll, hfile]
          rfl
        · rw [withPrelude, hprelude']
          rfl
      · cases h
    · cases h
  · cases h

theorem check_of_readChars : SourceFile.check [file] = (checkAll [m, more] n').mapError fun reports =>
      .rejected (Diagnostic.sorted (reports.map Report.diagnostic)) := by
  obtain ⟨hall, hadded⟩ := read_of_readChars htext hprelude h
  have hread : SourceFile.read [file] = .ok ([m], n) := by
    rw [SourceFile.read, hall]
  rw [SourceFile.check, hread]
  rw [ok_bind, checkModules, hadded]

end

/-- **A file is accepted if its characters are.** -/
theorem accepted_of_chars (file : SourceFile) (text prelude : List Char)
    (test : CheckedProgram → Ir.Program → Bool) (htext : String.ofList text = file.text)
    (hprelude : String.ofList prelude = Prelude.text)
    (h : ((readChars file.path text prelude).any fun ((m, _), more, n) => passes test (checkAll [m, more] n)) = true) :
    ∃ program ir, Accepted [file] program ir ∧ test program ir = true := by
  obtain ⟨⟨⟨m, n⟩, more, n'⟩, hread, hpasses⟩ := (Option.any_eq_true _ _).1 h
  obtain ⟨program, ir, hprogram, hlowered, htest⟩ := exists_of_passes hpasses
  refine ⟨program, ir, ⟨?_, hlowered⟩, htest⟩
  rw [check_of_readChars htext hprelude hread, hprogram]
  rfl

/-- Constants that ask for each other, a range over one of them, a range that goes beyond its base,
a method, and instances of a generic struct and of generic functions. -/
def measured : SourceFile :=
  ⟨⟨"app/main.kl"⟩, "type Small = i64[0..=LIMIT];
const LIMIT: i64 = BASE * 2;
const BASE: i64 = 21;
const START: Small = 7;
const WIDE: i64 = 1000;
enum Side { Left, Right }
struct Pair[T] { first: T, second: T }
struct Point { x: Small, side: Side }
impl Point {
  fn weight(self: Point) -> i64 { self.x + BASE }
}
fn swap[T](pair: Pair[T]) -> Pair[T] { Pair { first: pair.second, second: pair.first } }
fn turn[T](pair: Pair[T]) -> T { let turned = swap(pair); turned.first }
fn wide() -> i8[0..=WIDE] { 500 }
fn main() -> i64 {
  let point = Point { x: START, side: Side.Left };
  turn(Pair { first: 1, second: Point.weight(point) })
}"⟩

set_option maxRecDepth 10000 in
theorem accepted_measured : ∃ p ir, Accepted [measured] p ir ∧ p.functions.size = 5 ∧
    p.signatures.structs.size = 2 ∧ p.signatures.enums.size = 1 ∧ p.consts.size = 4 ∧
      ∃ sig, p.signatures.functions.get? ⟨⟨"app", []⟩, "wide"⟩ = some sig ∧ sig.ret = .range .i8 0 1000 := by
  obtain ⟨p, ir, haccepted, htest⟩ := accepted_of_chars measured _ _
    (fun p _ => p.functions.size == 5 && p.signatures.structs.size == 2 &&
      p.signatures.enums.size == 1 && p.consts.size == 4 &&
        (p.signatures.functions.get? ⟨⟨"app", []⟩, "wide"⟩).any (·.ret == .range .i8 0 1000))
    rfl rfl (by decide +kernel)
  simp only [Bool.and_eq_true, beq_iff_eq, and_assoc, Option.any_eq_true] at htest
  exact ⟨p, ir, haccepted, htest⟩

end Keel.Lowering
