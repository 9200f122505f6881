/-
# The names of a program

The checker files functions, structs and enums under the names of declarations, of
methods, which add theirs to that of their type, and of instances, which add their
arguments.  So every name starts with a word, and its module is that of a file
(`Makes.named`).
-/
import Keel.Proofs.Grammar.Words
import Keel.Proofs.Typing.Phases
import Keel.Proofs.Typing.Proper

namespace Keel

open List

structure QualName.In (M : ModulePath → Prop) (q : QualName) : Prop where
  module : M q.module
  name : Headed q.name

def Ty.In (M : ModulePath → Prop) : Ty → Prop
  | .struct name | .enum name => name.In M
  | _ => True

namespace Typing

variable {M : ModulePath → Prop} {d : Declarations}

theorem in_instanceName {base : QualName} (h : base.In M) (params : List String) (args : List Ty) :
    (instanceName base params args).In M := by
  refine ⟨h.module, ?_⟩
  show Headed (base.name ++ "[" ++ instanceKey params args ++ "]")
  rw [String.append_assoc, String.append_assoc]
  refine h.name.append fun c hc => ?_
  simp only [String.toList_append] at hc
  cases hc
  decide

theorem in_method {owner : QualName} (h : owner.In M) (method : String) :
    (owner.withName (owner.name ++ "." ++ method)).In M := by
  refine ⟨h.module, ?_⟩
  show Headed (owner.name ++ "." ++ method)
  rw [String.append_assoc]
  refine h.name.append fun c hc => ?_
  simp only [String.toList_append] at hc
  cases hc
  decide

/-! ### Declarations -/

namespace Collected

/-- Declared names are words, and they are in modules that satisfy `M`. -/
structure In (M : ModulePath → Prop) (c : Collected) : Prop where
  functions : ∀ name f, c.functions.get? name = some f → M name.module ∧ isWord name.name
  structs : ∀ name s, c.decls.structs.get? name = some s → M name.module ∧ isWord name.name
  enums : ∀ name e, c.decls.enums.get? name = some e → M name.module ∧ isWord name.name
  impls : ∀ block ∈ c.impls, M block.scope.path ∧ ∀ method ∈ block.decl.methods, isWord method.name

variable {c : Collected} {scope : ModuleScope}

theorem In.add (h : c.In M) (hscope : M scope.path) {item : Item}
    (hitem : ∀ name ∈ item.names, isWord name) : (c.add scope item).In M := by
  have hone {name : String} (hname : name ∈ item.names) {q : QualName}
      (hq : scope.path.qualify name = q) : M q.module ∧ isWord q.name := hq ▸ ⟨hscope, hitem name hname⟩
  cases item with
  | function d =>
    refine { h with functions := fun name f hf => ?_ }
    rcases get?_insertIfNew hf with hold | ⟨hnew, -⟩
    · exact h.functions name f hold
    · exact hone mem_cons_self hnew
  | struct d =>
    refine { h with structs := fun name s hs => ?_ }
    rcases get?_insertIfNew hs with hold | ⟨hnew, -⟩
    · exact h.structs name s hold
    · exact hone mem_cons_self hnew
  | enum d =>
    refine { h with enums := fun name e he => ?_ }
    rcases get?_insertIfNew he with hold | ⟨hnew, -⟩
    · exact h.enums name e hold
    · exact hone mem_cons_self hnew
  | impl block =>
    refine { h with impls := forall_mem_cons.2 ⟨⟨hscope, fun method hmethod => ?_⟩, h.impls⟩ }
    exact hitem method.name (mem_map_of_mem hmethod)
  | typeAlias _ | const _ | trait _ => exact { h with }

theorem In.foldl_add (h : c.In M) (hscope : M scope.path) {items : List Item}
    (hitems : ∀ item ∈ items, ∀ name ∈ item.names, isWord name) :
    (items.foldl (Collected.add scope) c).In M := by
  induction items generalizing c with
  | nil => exact h
  | cons item rest ih =>
    obtain ⟨hitem, hrest⟩ := forall_mem_cons.1 hitems
    exact ih (h.add hscope hitem) hrest

theorem In.addFiles (h : c.In M) {files : List ModuleFile}
    (hfiles : ∀ file ∈ files, M file.module ∧ ∀ item ∈ file.text.items, ∀ name ∈ item.names, isWord name)
    (index : ModuleIndex) : (Collected.addFiles index c files).1.In M := by
  induction files generalizing c with
  | nil => exact h
  | cons file rest ih =>
    obtain ⟨⟨hmodule, hitems⟩, hrest⟩ := forall_mem_cons.1 hfiles
    exact ih (h.foldl_add hmodule hitems) hrest

theorem in_ofFiles {files : List ModuleFile}
    (h : ∀ file ∈ files, M file.module ∧ ∀ item ∈ file.text.items, ∀ name ∈ item.names, isWord name) :
    (ofFiles files).1.In M := by
  refine In.addFiles ?_ h _
  constructor <;> simp

end Collected

variable {n : NodeId} {m : ModuleDef}

theorem exists_of_mem_readAll {files : List SourceFile} (h : m ∈ (SourceFile.readAll files n).1) :
    ∃ file ∈ files, ∃ k k', ModuleDef.ofText file.path file.text k = .ok (m, k') := by
  induction files generalizing n with
  | nil => cases h
  | cons file rest ih =>
    unfold SourceFile.readAll at h
    split at h
    · rename_i m' n' hread
      rcases mem_cons.1 h with rfl | h
      · exact ⟨file, mem_cons_self, n, n', hread⟩
      · obtain ⟨file', hfile, hm⟩ := ih h
        exact ⟨file', mem_cons_of_mem _ hfile, hm⟩
    · obtain ⟨file', hfile, hm⟩ := ih h
      exact ⟨file', mem_cons_of_mem _ hfile, hm⟩

theorem mem_withPrelude {text : String} {modules : List ModuleDef} (h : m ∈ (withPrelude text modules n).1) :
    m ∈ modules ∨ ∃ k k', ModuleDef.ofText Prelude.path text k = .ok (m, k') := by
  unfold withPrelude at h
  split at h
  · rename_i prelude n' hread
    rcases mem_append.1 h with h | h
    · exact .inl h
    · cases mem_singleton.1 h
      exact .inr ⟨n, n', hread⟩
  · exact .inl h

theorem in_gathered {files : List SourceFile}
    (hfiles : ∀ file ∈ files, M (ModulePath.ofFile file.path)) (hprelude : M Prelude.module) :
    (SourceFile.gathered files).1.In M := by
  refine Collected.in_ofFiles fun file hfile => ?_
  obtain ⟨m, hm, rfl⟩ := mem_map.1 hfile
  -- A module is that of a file or the prelude.
  obtain ⟨path, text, k, k', hread, hpath⟩ : ∃ path text k k',
      ModuleDef.ofText path text k = .ok (m, k') ∧ M (ModulePath.ofFile path) := by
    rcases mem_withPrelude hm with hm | ⟨k, k', hread⟩
    · obtain ⟨file, hfile, k, k', hread⟩ := exists_of_mem_readAll hm
      exact ⟨_, _, k, k', hread, hfiles file hfile⟩
    · have hmodule : ModulePath.ofFile Prelude.path = Prelude.module := rfl
      exact ⟨_, _, k, k', hread, hmodule ▸ hprelude⟩
  refine ⟨?_, ModuleDef.words_of_ofText hread⟩
  show M (ModulePath.ofFile m.path)
  rwa [ModuleDef.path_of_ofText hread]

/-! ### Following names -/

def Declarations.In (M : ModulePath → Prop) (d : Declarations) : Prop :=
  ∀ name nominal, d.nominal? name = some nominal → M name.module ∧ isWord name.name

theorem Collected.In.decls {c : Collected} (h : c.In M) : c.decls.In M := by
  intro name nominal hnominal
  unfold Declarations.nominal? at hnominal
  split at hnominal
  · exact h.structs name _ ‹_›
  · obtain ⟨e, he, -⟩ := Option.map_eq_some_iff.1 hnominal
    exact h.enums name e he

/-- All tables are filed under such names, and aliases stand for types with such names. -/
structure State.Named (M : ModulePath → Prop) (s : State) : Prop where
  functions : ∀ name g, s.functions.get? name = some g → name.In M
  structs : ∀ name sig, s.signatures.structs.get? name = some sig → name.In M
  enums : ∀ name sig, s.signatures.enums.get? name = some sig → name.In M
  checked : ∀ name f, s.checked.get? name = some f → name.In M
  aliases : ∀ name ty, s.aliases.get? name = some (.done ty) → ty.In M

/-- Aliases and instances are types with such names. -/
structure Resolver.Names (M : ModulePath → Prop) (d : Declarations) (r : Resolver) : Prop where
  typeAlias : ∀ name, d.aliases.contains name → Holds d (State.Named M) (r.typeAlias name) (Ty.In M)
  const : ∀ name site, Typing.Keeps d (State.Named M) (r.const name site)
  instantiate : ∀ base args site, Holds d (State.Named M) (r.instantiate base args site) (Ty.In M)

section Following

variable {r : Resolver}

theorem keeps_report_named (site : Site) (problem : Problem) :
    Keeps d (State.Named M) (report site problem) := keeps_modify fun _ h => { h with }

theorem Resolver.Names.keeps (hr : r.Names M d) : r.Keeps d (State.Named M) where
  report := keeps_report_named
  typeAlias name hname := (hr.typeAlias name hname).keeps
  const := hr.const
  instantiate base args site := (hr.instantiate base args site).keeps

theorem holds_reject_named (site : Site) (problem : Problem) :
    Holds d (State.Named M) (reject site problem) (Ty.In M) :=
  (keeps_report_named site problem).bind fun _ => holds_pure trivial

theorem in_ty (nominal : Nominal) {name : QualName} (h : name.In M) : (nominal.ty name).In M := by
  unfold Nominal.ty
  split <;> exact h

theorem holds_nominalType_named (hd : d.In M) (hr : r.Names M d) (name : QualName) (args : List Ty)
    (site : Site) : Holds d (State.Named M) (nominalType r name args site) (Ty.In M) := by
  refine (holds_read (P := (d = ·)) rfl).bind fun _ hdecls => ?_
  obtain rfl := hdecls
  split
  · split
    · exact (holds_reject_named _ _).bind fun _ h => holds_pure h
    · exact hr.typeAlias name ‹_›
  · split
    · exact holds_pure trivial
    · rename_i nominal hnominal
      obtain ⟨hmodule, hword⟩ := hd name nominal hnominal
      split
      · exact holds_pure (in_ty nominal ⟨hmodule, headed_of_isWord hword⟩)
      · exact holds_reject_named _ _
      · exact holds_reject_named _ _
      · exact hr.instantiate _ _ _

theorem in_simpleType? {path : List String} {ty : Ty} (h : simpleType? ∅ path = some ty) : ty.In M := by
  unfold simpleType? at h
  split at h
  · rename_i name
    have hempty : (∅ : TypeEnv).get? name = none := by simp
    rw [hempty] at h
    dsimp only at h
    split at h
    · cases h
      trivial
    · split at h <;> cases h <;> trivial
  · cases h

/-- Only the outermost name counts, so this takes no induction. -/
theorem holds_resolveType_named (hd : d.In M) (hr : r.Names M d) (scope : ModuleScope) {ann : TypeAnn}
    (hann : ann.foundTypes = []) : Holds d (State.Named M) (resolveType r scope ∅ ann) (Ty.In M) := by
  obtain ⟨expr, span⟩ := ann
  cases expr with
  | unit => exact holds_pure trivial
  | resolved ty => cases hann
  | range base low high =>
    rw [resolveType]
    refine ((asks_resolveType scope ∅ base).keeps hr.keeps).bind fun ty => ?_
    split
    · refine ((asks_evalConst scope low _).keeps hr.keeps).bind fun _ =>
        ((asks_evalConst scope high _).keeps hr.keeps).bind fun _ => ?_
      unfold rangeType
      split
      · split
        · exact holds_reject_named _ _
        · exact holds_pure trivial
      · exact holds_pure trivial
    · exact holds_pure trivial
    · exact holds_reject_named _ _
  | named path args =>
    rw [resolveType]
    split
    · rename_i ty hty
      split at hty
      · exact holds_pure (in_simpleType? hty)
      · cases hty
    · dsimp only
      split
      · unfold listType
        split
        · refine ((asks_resolveType scope ∅ _).keeps hr.keeps).bind fun elem => holds_pure ?_
          split <;> trivial
        · exact holds_reject_named _ _
      · refine ((asks_resolveTypes scope ∅ args).keeps hr.keeps).bind fun resolved =>
          ((Asks.lookup _ _ _ _).keeps hr.keeps).bind fun _ =>
            ((Asks.found? _ _ _ _).keeps hr.keeps).bind fun name => ?_
        cases name with
        | none => exact holds_pure trivial
        | some name => exact holds_nominalType_named hd hr name resolved _

theorem holds_aliasType_named (hd : d.In M) (hp : d.Plain) (hr : r.Names M d) (name : QualName) :
    Holds d (State.Named M) (aliasType r name) (Ty.In M) := by
  refine (holds_get (P := State.Named M) fun _ h => h).bind fun s hs =>
    (holds_read (P := (d = ·)) rfl).bind fun _ hdecls => ?_
  obtain rfl := hdecls
  have hset {progress : Progress Ty} (h : ∀ ty, progress = .done ty → ty.In M) :
      Keeps d (State.Named M) (setAlias name progress) := by
    refine keeps_modify fun s hs => { hs with aliases := fun other ty hty => ?_ }
    rw [get?_insert] at hty
    split at hty
    · exact h ty (Option.some.inj hty)
    · exact hs.aliases other ty hty
  split
  · exact holds_pure (hs.aliases _ _ ‹_›)
  · exact holds_reject_named _ _
  · rename_i decl _ hdecl
    exact (hset (by simp)).bind fun _ =>
      (holds_resolveType_named hd hr _ (hp.aliases name decl hdecl)).bind fun ty hty =>
        (hset (by simpa using hty)).bind fun _ => holds_pure hty
  · exact holds_pure trivial

theorem keeps_constValue_named (hr : r.Names M d) (name : QualName) (site : Option Site) :
    Keeps d (State.Named M) (constValue r name site) := by
  have hset (progress : Progress CheckedConst) :
      Keeps d (State.Named M) (setConst name progress) := keeps_modify fun _ h => { h with }
  refine keeps_get.bind fun s => Keeps.bind (holds_read trivial) fun decls => ?_
  split
  · exact keeps_pure
  · split
    · exact (Asks.failConst _ _).keeps hr.keeps
    · exact keeps_pure
  · exact keeps_pure
  · refine (hset _).bind fun _ => ((asks_evalDeclared _).keeps hr.keeps).bind fun _ => ?_
    exact Holds.when_bind (keeps_report_named _ _) ((hset _).bind fun _ => keeps_pure)

theorem keeps_buildNominal_named (hr : r.Names M d) (nominal : Nominal) {name : QualName}
    (hname : name.In M) (env : TypeEnv) (origin : Option Origin) :
    Keeps d (State.Named M) (buildNominal r nominal name env origin) := by
  cases nominal with
  | struct s =>
    exact ((asks_structFields _ _ _ _).keeps hr.keeps).bind fun fields =>
      keeps_modify fun s h => { h with structs := forall_get?_insert h.structs hname }
  | enum e =>
    exact ((asks_enumVariants _ _ _ _).keeps hr.keeps).bind fun variants =>
      keeps_modify fun s h => { h with enums := forall_get?_insert h.enums hname }

theorem holds_instantiateType_named (hd : d.In M) (hr : r.Names M d) (base : QualName)
    (args : List Ty) (site : Site) :
    Holds d (State.Named M) (instantiateType r base args site) (Ty.In M) := by
  refine (holds_read (P := (d = ·)) rfl).bind fun _ hdecls => ?_
  obtain rfl := hdecls
  split
  · exact holds_pure trivial
  rename_i nominal hnominal
  obtain ⟨hmodule, hword⟩ := hd base nominal hnominal
  have hname : (instanceName base nominal.params args).In M :=
    in_instanceName ⟨hmodule, headed_of_isWord hword⟩ _ _
  dsimp only
  split
  · exact holds_reject_named _ _
  split
  · exact holds_pure trivial
  refine keeps_get.bind fun s => ?_
  split
  · exact (keeps_modify fun _ h => { h with }).bind fun _ => holds_pure (in_ty nominal hname)
  split
  · exact holds_pure (in_ty nominal hname)
  split
  · exact holds_reject_named _ _
  · have hbuilding (f : List QualName → List QualName) : Keeps d (State.Named M)
        (modify fun t => { t with building := f t.building } : Check Unit) :=
      keeps_modify fun _ h => { h with }
    exact (hbuilding (instanceName base nominal.params args :: ·)).bind fun _ =>
      (keeps_buildNominal_named hr nominal hname _ _).bind fun _ =>
        (hbuilding List.tail).bind fun _ => holds_pure (in_ty nominal hname)

end Following

theorem Resolver.names_within (hd : d.In M) (hp : d.Plain) (depth : Nat) :
    (Resolver.within depth).Names M d := by
  induction depth with
  | zero =>
    exact ⟨fun _ _ => holds_pure trivial, fun _ _ => keeps_pure, fun _ _ _ => holds_pure trivial⟩
  | succ depth ih =>
    exact ⟨fun name _ => holds_aliasType_named hd hp ih name, keeps_constValue_named ih,
      holds_instantiateType_named hd ih⟩

theorem holds_typeOf_named (hd : d.In M) (hp : d.Plain) (scope : ModuleScope) {ann : TypeAnn}
    (hann : ann.foundTypes = []) : Holds d (State.Named M) (typeOf scope ∅ ann) (Ty.In M) :=
  Holds.bind (R := Resolver.Names M d) (fun _ hs => ⟨hs, Resolver.names_within hd hp _⟩) fun _ hr =>
    holds_resolveType_named hd hr scope hann

/-! ### All phases -/

variable {c : Collected} {files : List SourceFile}

theorem declares_named (hc : c.In M) (hp : c.decls.Plain)
    (himpls : ∀ block ∈ c.impls, (Item.impl block.decl).foundTypes = []) :
    Declares c.decls c.impls.reverse (Ty.In M) (State.Named M) where
  resolver := (Resolver.names_within hc.decls hp _).keeps
  struct name s fields hs := by
    obtain ⟨hmodule, hword⟩ := hc.structs name s hs
    exact keeps_modify fun s h =>
      { h with structs := forall_get?_insert h.structs ⟨hmodule, headed_of_isWord hword⟩ }
  enum name e variants he := by
    obtain ⟨hmodule, hword⟩ := hc.enums name e he
    exact keeps_modify fun s h =>
      { h with enums := forall_get?_insert h.enums ⟨hmodule, headed_of_isWord hword⟩ }
  sign _ := keeps_modify fun _ h => { h with }
  target block hblock := by
    have hfound := himpls block (mem_reverse.1 hblock)
    rw [Item.foundTypes, append_eq_nil_iff] at hfound
    exact holds_typeOf_named hc.decls hp _ hfound.1
  method block hblock m hm owner target htarget howner hmodule := by
    have hin : owner.In M := by
      rcases howner with rfl | rfl <;> exact htarget
    have hname := in_method hin m.name
    rw [← hmodule]
    exact keeps_modify fun s h => { h with functions := forall_get?_insert h.functions hname }

theorem survives_named (hd : d.In M) (hp : d.Plain) :
    Survives d (fun name _ => name.In M) (State.Named M) where
  resolver := (Resolver.names_within hd hp _).keeps
  found _ name g hs hg := hs.functions name g hg
  record _ := keeps_modify fun _ h => { h with }
  sign _ := keeps_modify fun _ h => { h with }
  number _ _ h := { h with }
  wait _ _ h := { h with }
  check _ _ _ _ hname h := { h with checked := forall_get?_insert h.checked hname }
  instantiate _ _ _ _ hbase := keeps_modify fun _ h =>
    { h with functions := forall_get?_insert h.functions (in_instanceName hbase _ _) }

/-- **Every name of an accepted program starts with a word and is in the module of a file.** -/
theorem Makes.named {p : CheckedProgram} {n : Nat} (h : Makes files p c n) (hc : c.In M) :
    (c.afterBodies n).Named M := by
  have hstart : (c.start n).Named M := by
    refine ⟨fun name g hg => ?_, ?_, ?_, ?_, ?_⟩
    · obtain ⟨hmodule, hword⟩ := hc.functions name g hg
      exact ⟨hmodule, headed_of_isWord hword⟩
    all_goals simp [Collected.start]
  have himpls : ∀ block ∈ c.impls, (Item.impl block.decl).foundTypes = [] := fun block hblock =>
    flatMap_eq_nil_iff.1 h.found _ (h.of.impls block hblock)
  have hsigned : (c.afterSignatures n).Named M := by
    rw [Collected.afterSignatures]
    exact ((declares_named hc h.plain himpls).checkSignatures _ hstart).1
  have hconsts : (c.afterConsts n).Named M := by
    rw [Collected.afterConsts]
    exact ((Resolver.names_within hc.decls h.plain _).keeps.checkConsts _ hsigned).1
  rw [Collected.afterBodies]
  exact ((survives_named hc.decls h.plain).checkBodies _ hconsts).1

end Typing
end Keel
