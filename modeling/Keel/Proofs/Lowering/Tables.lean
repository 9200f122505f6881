/-
# No definition is lost

Lowering files functions and layouts under the written forms of their names.  In a
program whose files are named by words these are different for different names, so every
definition keeps its own entry, and its own symbol in the emitted text.
-/
import Keel.Proofs.Lowering.Accepted
import Keel.Proofs.Lowering.Finish
import Keel.Proofs.Target.Mangling
import Keel.Proofs.Typing.Naming

namespace Keel

open List

def CheckedProgram.Defines (p : CheckedProgram) (name : QualName) : Prop :=
  name ∈ p.functions ∨ name ∈ p.signatures.structs ∨ name ∈ p.signatures.enums

def Ir.Program.symbols (ir : Ir.Program) : List String :=
  ir.functions.toList.map (Target.functionSymbol ·.2.name) ++
    ir.structs.toList.map (Target.structSymbol ·.2.name) ++
    ir.enums.toList.map (Target.enumSymbol ·.2.name)

namespace Lowering

variable {α β : Type} {table : Std.TreeMap QualName α} {lower : QualName → α → Except Fault β}
  {made : Std.TreeMap String β}

/-- Every entry has a result of its own, and there are no other results. -/
structure OneToOne (table : Std.TreeMap QualName α) (lower : QualName → α → Except Fault β)
    (made : Std.TreeMap String β) : Prop where
  result : ∀ name a, table.get? name = some a →
    ∃ b, made.get? name.text = some b ∧ lower name a = .ok b
  source : ∀ text b, made.get? text = some b →
    ∃! name, ∃ a, table.get? name = some a ∧ name.text = text ∧ lower name a = .ok b
  size : made.size = table.size

/-- Where names are told apart by their written forms, nothing is filed twice. -/
theorem oneToOne_of_lowerTable (h : lowerTable table lower = .ok made)
    (hinj : ∀ name ∈ table, ∀ other ∈ table, name.text = other.text → name = other) :
    OneToOne table lower made where
  result name a ha := by
    obtain ⟨b, hb, hget⟩ := get?_of_lowerTable h hinj ha
    exact ⟨b, hget, hb⟩
  source text b hb := by
    obtain ⟨name, a, ha, htext, hlower⟩ := exists_of_lowerTable h hb
    refine ⟨name, ⟨a, ha, htext, hlower⟩, ?_⟩
    rintro other ⟨a', ha', htext', -⟩
    exact hinj other (mem_of_get? ha') name (mem_of_get? ha) (htext'.trans htext.symm)
  size := by
    have hnodup : (table.keys.map QualName.text).Nodup := by
      refine List.Nodup.map_on (fun name hname other hother => ?_) table.nodup_keys
      exact hinj name (Std.TreeMap.mem_keys.1 hname) other (Std.TreeMap.mem_keys.1 hother)
    have hkeys : made.keys.Perm (table.keys.map QualName.text) := by
      refine (perm_ext_iff_of_nodup made.nodup_keys hnodup).2 fun text => ?_
      rw [Std.TreeMap.mem_keys, Std.TreeMap.mem_iff_isSome_getElem?, Option.isSome_iff_exists, mem_map]
      constructor
      · rintro ⟨b, hb⟩
        obtain ⟨name, a, ha, htext, -⟩ := exists_of_lowerTable h hb
        exact ⟨name, Std.TreeMap.mem_keys.2 (mem_of_get? ha), htext⟩
      · rintro ⟨name, hname, rfl⟩
        obtain ⟨a, ha⟩ := Option.isSome_iff_exists.1
          (Std.TreeMap.isSome_getElem?_iff_mem.2 (Std.TreeMap.mem_keys.1 hname))
        obtain ⟨b, -, hget⟩ := get?_of_lowerTable h hinj ha
        exact ⟨b, hget⟩
    rw [← Std.TreeMap.length_keys, hkeys.length_eq, length_map, Std.TreeMap.length_keys]

/-! ### Symbols -/

theorem map_toList_eq {f : β → String} (hname : ∀ text b, made.get? text = some b → f b = text)
    (g : String → String) : made.toList.map (fun entry => g (f entry.2)) = made.keys.map g := by
  rw [← Std.TreeMap.map_fst_toList_eq_keys, map_map]
  refine map_congr_left fun entry hentry => ?_
  have hget := Std.TreeMap.mem_toList_iff_getElem?_eq_some.1 hentry
  exact congrArg g (hname entry.1 entry.2 hget)

variable {program : CheckedProgram} {entry : Option QualName} {ir : Ir.Program}

section

variable (h : lowerProgram program entry = .ok ir)

include h

theorem name_of_function (text : String) (f : Ir.Function)
    (hf : ir.functions.get? text = some f) : f.name = text := by
  obtain ⟨name, _, _, _, -, htext, hlowered⟩ := exists_lowered_of_get? h hf
  rw [hlowered.parts.1, htext]

theorem name_of_struct (text : String)
    (layout : Ir.StructLayout) (hlayout : ir.structs.get? text = some layout) : layout.name = text := by
  obtain ⟨name, sig, -, rfl, hlower⟩ := exists_of_lowerTable (lowerProgram_eq_ok h).1 hlayout
  obtain ⟨fields, -, hfields⟩ := bind_eq_ok.1 hlower
  cases hfields
  rfl

theorem name_of_enum (text : String)
    (layout : Ir.EnumLayout) (hlayout : ir.enums.get? text = some layout) : layout.name = text := by
  obtain ⟨name, sig, -, rfl, hlower⟩ := exists_of_lowerTable (lowerProgram_eq_ok h).2.1 hlayout
  obtain ⟨variants, -, hvariants⟩ := bind_eq_ok.1 hlower
  cases hvariants
  rfl

/-- **Definitions have different symbols.**  They are filed under different texts, and a
symbol tells the text and the kind of the definition. -/
theorem nodup_symbols : ir.symbols.Nodup := by
  unfold Ir.Program.symbols
  rw [map_toList_eq (name_of_function h), map_toList_eq (name_of_struct h), map_toList_eq (name_of_enum h)]
  refine nodup_append.2 ⟨nodup_append.2 ⟨?_, ?_, ?_⟩, ?_, ?_⟩
  · exact ir.functions.nodup_keys.map fun _ _ => Target.functionSymbol_inj
  · exact ir.structs.nodup_keys.map fun _ _ => Target.structSymbol_inj
  · simp only [forall_mem_map]
    exact fun a _ b _ => (Target.symbol_kinds a b "").1
  · exact ir.enums.nodup_keys.map fun _ _ => Target.enumSymbol_inj
  · simp only [forall_mem_append, forall_mem_map]
    exact ⟨fun a _ c _ => (Target.symbol_kinds a "" c).2.1, fun b _ c _ => (Target.symbol_kinds "" b c).2.2⟩

end

/-! ### Programs -/

theorem in_of_defines {M : ModulePath → Prop} {s : Typing.State} (hs : s.Named M) {name : QualName}
    (h : s.program.Defines name) : name.In M := by
  have hget {α : Type} {t : Std.TreeMap QualName α} (hmem : name ∈ t) : ∃ a, t.get? name = some a :=
    Option.isSome_iff_exists.1 (Std.TreeMap.isSome_getElem?_iff_mem.2 hmem)
  rcases h with hmem | hmem | hmem
  · obtain ⟨f, hf⟩ := hget hmem
    exact hs.checked name f hf
  · obtain ⟨sig, hsig⟩ := hget hmem
    exact hs.structs name sig hsig
  · obtain ⟨sig, hsig⟩ := hget hmem
    exact hs.enums name sig hsig

theorem worded_of_check {files : List SourceFile} {p : CheckedProgram}
    (hpaths : ∀ file ∈ files, file.path.Worded) (h : SourceFile.check files = .ok p) {name : QualName}
    (hname : p.Defines name) : name.Worded := by
  have hmakes := Typing.makes_of_check h
  have hin : (SourceFile.gathered files).1.In ModulePath.Worded :=
    Typing.in_gathered (fun file hfile => ModulePath.worded_ofFile (hpaths file hfile)) ⟨by decide, by decide⟩
  have hnamed := hmakes.named hin
  have hq := in_of_defines hnamed (hmakes.program ▸ hname)
  exact ⟨hq.module, hq.name⟩

/-- **No definition is lost in lowering.**  If the files of an accepted program are named by
words, its functions, structs and enums are told apart by the written forms of their names, and
once it is lowered each has an entry of its own, and their symbols are different. -/
theorem oneToOne_of_check {files : List SourceFile} {p : CheckedProgram}
    (hpaths : ∀ file ∈ files, file.path.Worded) (hcheck : SourceFile.check files = .ok p) :
    (∀ name other, p.Defines name → p.Defines other → name.text = other.text → name = other) ∧
      ∀ entry ir, lowerProgram p entry = .ok ir →
        OneToOne p.functions (lowerFunction p ir.structs) ir.functions ∧
        OneToOne p.signatures.structs structLayout ir.structs ∧
        OneToOne p.signatures.enums enumLayout ir.enums ∧ ir.symbols.Nodup := by
  have hinj : ∀ name other, p.Defines name → p.Defines other → name.text = other.text → name = other :=
    fun name other hname hother htext => QualName.eq_of_text_eq (worded_of_check hpaths hcheck hname)
      (worded_of_check hpaths hcheck hother) htext
  refine ⟨hinj, fun entry ir hlower => ?_⟩
  obtain ⟨hstructs, henums, hfunctions⟩ := lowerProgram_eq_ok hlower
  refine ⟨oneToOne_of_lowerTable hfunctions fun name hname other hother => ?_,
    oneToOne_of_lowerTable hstructs fun name hname other hother => ?_,
    oneToOne_of_lowerTable henums fun name hname other hother => ?_, nodup_symbols hlower⟩
  · exact hinj name other (.inl hname) (.inl hother)
  · exact hinj name other (.inr (.inl hname)) (.inr (.inl hother))
  · exact hinj name other (.inr (.inr hname)) (.inr (.inr hother))

theorem oneToOne_of_check_measured : ∃ p ir, (∀ file ∈ [measured], file.path.Worded) ∧
    SourceFile.check [measured] = .ok p ∧ lowerProgram p none = .ok ir ∧ p.functions.size = 5 ∧
    OneToOne p.functions (lowerFunction p ir.structs) ir.functions ∧
    OneToOne p.signatures.structs structLayout ir.structs ∧
    OneToOne p.signatures.enums enumLayout ir.enums ∧ ir.symbols.Nodup := by
  obtain ⟨p, ir, haccepted, hsize, -⟩ := accepted_measured
  have hpath : (⟨"app/main.kl"⟩ : SourcePath).Worded := by decide
  have hpaths : ∀ file ∈ [measured], file.path.Worded := fun file hfile => by
    rw [mem_singleton.1 hfile]
    exact hpath
  exact ⟨p, ir, hpaths, haccepted.checked, haccepted.lowered, hsize,
    (oneToOne_of_check hpaths haccepted.checked).2 none ir haccepted.lowered⟩

end Lowering
end Keel
