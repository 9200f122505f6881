/-
# Reading undoes writing

A module that was read can be written so that every expression stands in brackets and every
statement is followed by `;`.  Reading this text gives the module back, whatever the first text
looked like: only the numbers and the spans of its nodes may differ
(`ModuleDef.exists_ofText_source`).

Three facts make it up.  What is read can be written with lexemes that a text can hold
(`ModuleDef.fit_of_ofText`), such lexemes are scanned as they were rendered (`scan_render`), and
the lexemes of a written module are read as that module (`ModuleDef.exists_ofTokens_print`).
-/
import Keel.Proofs.Grammar.Declarations
import Keel.Proofs.Grammar.Writing

namespace Keel

def ModuleDef.source (m : ModuleDef) : String := render m.print

/-- **Reading undoes writing.** -/
theorem ModuleDef.exists_ofText_source {path : SourcePath} {text : String} {n n' : NodeId} {m : ModuleDef}
    (h : ModuleDef.ofText path text n = .ok (m, n')) (k : NodeId) :
    ∃ m' k', ModuleDef.ofText path m.source k = .ok (m', k') ∧ m'.shape = m.shape := by
  obtain ⟨hwritable, hreadable⟩ := ModuleDef.fit_of_ofText h
  obtain ⟨tokens, hscan, htokens⟩ := scan_render hreadable
  obtain ⟨m', k', hread, hshape⟩ := ModuleDef.exists_ofTokens_print hwritable htokens k
  refine ⟨m', k', ?_, hshape⟩
  rw [ModuleDef.ofText, ModuleDef.source, hscan, ← ModuleDef.path_of_ofText h]
  exact hread

/-- What is found out about a module by reading the characters of its text. -/
def ModuleDef.examineChars (path : SourcePath) (cs : List Char) (n : NodeId) (test : ModuleDef → Bool) : Bool :=
  match scanChars cs with
  | .ok tokens =>
    match ModuleDef.ofTokens path tokens n with
    | .ok (m, _) => test m
    | .error _ => false
  | .error _ => false

theorem ModuleDef.exists_of_examineChars {path : SourcePath} {text : String} {n : NodeId} (cs : List Char)
    (test : ModuleDef → Bool) (hcs : String.ofList cs = text) (h : examineChars path cs n test = true) :
    ∃ m n', ModuleDef.ofText path text n = .ok (m, n') ∧ test m = true := by
  unfold examineChars at h
  rw [ModuleDef.ofText, ← hcs, scan_ofList]
  split at h
  · rename_i tokens htokens
    rw [htokens]
    split at h
    · exact ⟨_, _, ‹_›, h⟩
    · cases h
  · cases h

/-- Something of everything. -/
def sampler : String :=
  "import store::shelf::{Box as Crate, fill,}; import maths as m;
pub type Small = i64[-1..=0x1_0];
const LIMIT: Small = (3); // a comment
const GREETING: str = \"say \\\"hi\\\"\\n\";
pub enum Tree[T] { Leaf, Node(T, Tree[T]); }
struct Pair[A, B] { pub first: A; second: B }
trait Sized { fn size(mut self: Self) -> i64; fn name(self: Self); }
impl Sized for Pair[i64, store::Name] {
  pub fn size(mut self: Self) -> i64 { self.first = -self.first; self.first }
  fn name(self: Self) { }
}
fn walk[T](tree: Tree[T], mut count: i64) -> i64 {
  let text: str = GREETING;
  let empty: ();
  while !(count >= 10) && (Pair { first: 1, second: 2 }).first == 1 {
    count = count - 1 - 2 * 3 as i64;
    if count == -5 { break; } else if true { continue; }
  }
  match tree {
    .Leaf => 0,
    Tree.Node(-1, _) => { walk[T](tree, - count) },
    m::Tree.Node(left, .Leaf) => return_value(m::zero(), ~left)
  }
  if count < 0 { return; }
  if count < 0 { 1 } else { count }
}"

set_option maxRecDepth 10000 in
theorem ModuleDef.exists_ofText_source_sampler : ∃ m n m' n',
    ModuleDef.ofText ⟨"app/main.kl"⟩ sampler 0 = .ok (m, n) ∧
      m.imports.length = 2 ∧ m.items.length = 8 ∧
      ModuleDef.ofText ⟨"app/main.kl"⟩ m.source 100 = .ok (m', n') ∧ m'.shape = m.shape := by
  obtain ⟨m, n, hread, hcount⟩ : ∃ m n, ModuleDef.ofText ⟨"app/main.kl"⟩ sampler 0 = .ok (m, n) ∧
      (m.imports.length == 2 && m.items.length == 8) = true :=
    ModuleDef.exists_of_examineChars _ _ rfl (by decide +kernel)
  simp only [Bool.and_eq_true, beq_iff_eq] at hcount
  obtain ⟨m', n', hagain, hshape⟩ := ModuleDef.exists_ofText_source hread 100
  exact ⟨m, n, m', n', hread, hcount.1, hcount.2, hagain, hshape⟩

end Keel
