/-
# Declared names are words

The scanner makes identifiers of letters, digits and underscores only, and a module can be
written with the lexemes of its text.  Whatever a module declares is an identifier in its
written form, so it has a word for a name (`ModuleDef.words_of_ofText`).
-/
import Keel.Proofs.Grammar.Writing
import Keel.Proofs.Syntax.Spelling

namespace Keel

open List

def Item.names : Item → List String
  | .function d => [d.name]
  | .struct d => [d.name]
  | .enum d => [d.name]
  | .typeAlias d => [d.name]
  | .const d => [d.name]
  | .trait d => [d.name]
  | .impl block => block.methods.map (·.name)

theorem FunctionDef.ident_mem_printMethod (f : FunctionDef) : .ident f.name ∈ f.printMethod := by
  simp [FunctionDef.printMethod, FunctionDef.print]

theorem Item.ident_mem_print (i : Item) : ∀ name ∈ i.names, .ident name ∈ i.print := by
  intro name hname
  cases i with
  | impl block =>
    obtain ⟨f, hf, rfl⟩ := mem_map.1 hname
    have hmethod : .ident f.name ∈ block.methods.flatMap FunctionDef.printMethod :=
      mem_flatMap.2 ⟨f, hf, f.ident_mem_printMethod⟩
    simp only [Item.print, ImplBlock.print, Print.braced, mem_cons, mem_append]
    exact .inr (.inr (.inr (.inr (.inl hmethod))))
  | function f =>
    cases mem_singleton.1 hname
    exact f.ident_mem_printMethod
  | _ =>
    cases mem_singleton.1 hname
    simp [Item.print]

theorem isWord_of_readable {name : String} (h : (Lexeme.ident name).Readable) : isWord name := by
  obtain ⟨piece, h⟩ := h
  generalize hl : Lexeme.ident name = l at h
  cases h with
  | @word c more hc hmore =>
    have hname : name = String.ofList (c :: more) := by
      unfold Scan.word at hl
      split at hl
      · cases hl
      · exact Lexeme.ident.inj hl
    rw [hname, isWord, String.toList_ofList]
    exact Bool.and_eq_true_iff.2 ⟨hc, all_eq_true.2 hmore⟩
  | _ => cases hl

/-- **What a module declares has a word for a name.** -/
theorem ModuleDef.words_of_ofText {path : SourcePath} {text : String} {n n' : NodeId} {m : ModuleDef}
    (h : ModuleDef.ofText path text n = .ok (m, n')) :
    ∀ item ∈ m.items, ∀ name ∈ item.names, isWord name := by
  intro item hitem name hname
  obtain ⟨-, hreadable⟩ := ModuleDef.fit_of_ofText h
  refine isWord_of_readable (hreadable _ (mem_append_right _ ?_))
  exact mem_flatMap.2 ⟨item, hitem, item.ident_mem_print name hname⟩

end Keel
