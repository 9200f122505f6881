/-
# Functions do not share nodes

In a program that has been accepted every node of every function has a number of its
own, also in the copies of generic functions, and nothing is known about a number that is
not in one of them.
-/
import Keel.Proofs.Lowering.Accepted
import Keel.Proofs.Typing.Generations

namespace Keel.Typing

structure Separate (files : List SourceFile) (p : CheckedProgram) : Prop where
  /-- No two nodes have the same number. -/
  distinct : (p.functions.toList.flatMap fun f => f.2.decl.body.nodes.map Node.id).Nodup
  /-- What is known is known about a node of one function. -/
  owned : ∀ id, p.resolutions.Knows id →
    ∃! name, ∃ f, p.functions.get? name = some f ∧ f.decl.body.Numbers id
  /-- Functions are declared under their names, or they are instances: but for numbers and types, the body is that of
  the generic function that is declared under the name which the instance is named after. -/
  copied : ∀ name f, p.functions.get? name = some f →
    ModuleFile.Declares (SourceFile.moduleFiles files) name f.decl ∨
      ∃ base t args, ModuleFile.Declares (SourceFile.moduleFiles files) base t ∧ t.typeParams ≠ [] ∧
        name = instanceName base t.typeParams args ∧ f.decl.body.erase = t.body.erase

section Last

variable {files : List SourceFile} {declares : QualName → FunctionDef → Prop} {I : State → Prop}
  {Q : State → CheckedFunction → Prop} {todo : List QualName} {s : State}

theorem Underway.owner_unique (h : Underway declares I Q todo s) {id : Nat} {name name' : QualName}
    {f f' : CheckedFunction} (hf : s.checked.get? name = some f) (hid : f.decl.body.Numbers id)
    (hf' : s.checked.get? name' = some f') (hid' : f'.decl.body.Numbers id) : name = name' := by
  obtain ⟨g, hg, -, rfl⟩ := h.checked name f hf
  obtain ⟨g', hg', -, rfl⟩ := h.checked name' f' hf'
  obtain ⟨node, hnode, heq⟩ := hid
  obtain ⟨node', hnode', heq'⟩ := hid'
  by_contra hne
  exact h.spread.apart name g name' g' hg hg' hne node hnode node' hnode' (heq.trans heq'.symm)

theorem Underway.distinct (h : Underway declares I Q todo s) :
    (s.checked.toList.flatMap fun f => f.2.decl.body.nodes.map Node.id).Nodup := by
  have hget : ∀ f ∈ s.checked.toList, s.checked.get? f.1 = some f.2 := fun f hf =>
    Std.TreeMap.mem_toList_iff_getElem?_eq_some.1 hf
  refine List.nodup_flatMap.2 ⟨fun f hf => ?_, ?_⟩
  · obtain ⟨g, hg, -, heq⟩ := h.checked f.1 f.2 (hget f hf)
    rw [heq]
    exact (h.spread.numbered f.1 g hg).nodup
  · refine s.checked.distinct_keys_toList.imp_of_mem fun {f f'} hf hf' hne id hid hid' => hne ?_
    rw [h.owner_unique (hget f hf) (List.mem_map.1 hid) (hget f' hf') (List.mem_map.1 hid')]
    exact Std.ReflCmp.compare_self

theorem Underway.separate (h : Underway (ModuleFile.Declares (SourceFile.moduleFiles files)) I Q todo s) :
    Separate files s.program where
  distinct := h.distinct
  owned id hid := by
    obtain ⟨name, f, hf, hnumbers⟩ := h.known id hid
    exact ⟨name, ⟨f, hf, hnumbers⟩, fun name' ⟨f', hf', hnumbers'⟩ =>
      h.owner_unique hf' hnumbers' hf hnumbers⟩
  copied name f hf := by
    obtain ⟨g, hg, -, rfl⟩ := h.checked name f hf
    rcases h.origin name g hg with hdef | ⟨base, t, ht, hinst⟩
    · exact .inl hdef
    · obtain ⟨args, hname⟩ := hinst.named
      exact .inr ⟨base, t.decl, args, ht, hinst.generic, hname, hinst.body⟩

end Last

theorem establishes_true (d : Declarations) : Establishes d (fun _ => True) fun _ _ => True where
  keeps _ _ _ _ := ⟨trivial, trivial⟩
  taken _ _ := trivial
  congr _ _ _ _ _ _ _ := trivial
  holds _ _ _ _ _ _ _ _ _ _ _ := trivial

/-- **No two functions share a node.**  And from whatever state, checking a function changes
nothing that is known about other nodes than its own. -/
theorem separate_of_check {files : List SourceFile} {p : CheckedProgram}
    (h : SourceFile.check files = .ok p) :
    Separate files p ∧
      ∀ (d : Declarations) (s : State) (depth : Nat) (name : QualName) (id : Nat),
        (∀ g, s.functions.get? name = some g → ¬ g.decl.body.Numbers id) →
          ((checkFunction depth name).run d s).2.resolutions.entry id = s.resolutions.entry id := by
  obtain ⟨c, n, hmakes⟩ := exists_makes_of_check h
  have hlast := hmakes.underway trivial (establishes_true c.decls)
  refine ⟨hmakes.program ▸ hlast.1.separate, fun d s depth name id hid => entry_checkFunction hid⟩

/-- A generic function with two instances, and a loop and a match among its nodes. -/
def pickTwice : SourceFile :=
  ⟨⟨"app/main.kl"⟩, "enum Side { Left, Right }
fn pick[T](side: Side, left: T, right: T) -> T {
  let chosen: T = match side {
    Side.Left => left,
    Side.Right => right,
  };
  chosen
}
fn main() -> i64 {
  if pick(Side.Left, true, false) { pick(Side.Right, 1, 2) } else { 3 }
}"⟩

set_option maxRecDepth 10000 in
theorem separate_of_check_pickTwice :
    ∃ p, SourceFile.check [pickTwice] = .ok p ∧ p.functions.size = 3 ∧ Separate [pickTwice] p := by
  obtain ⟨p, ir, haccepted, hsize⟩ := Lowering.accepted_of_chars pickTwice _ _
    (fun p _ => p.functions.size == 3) rfl rfl (by decide +kernel)
  exact ⟨p, haccepted.checked, by simpa using hsize, (separate_of_check haccepted.checked).1⟩

end Keel.Typing
