/-
# Reading modules again

The lexemes of a written module are read as a module of the same shape
(`ModuleDef.exists_ofTokens_print`), whatever numbers and spans it gets.
-/
import Keel.Proofs.Grammar.Bodies

namespace Keel
namespace Grammar

open List

section Words

variable {α : Type} {n : Nat} {rest after : List Lexeme} {Q : α → Prop}

theorem runs_flag {word : Keyword} {given : Bool} {k : Bool → Parser α}
    (hahead : Ahead (· != .keyword word) rest) (h : Runs true n (k given) rest after Q) :
    Runs true n (accept (.keyword word) >>= k) (Print.flag word given ++ rest) after Q := by
  cases given
  · exact runs_refuse_of_ahead hahead h
  · exact runs_accept h

theorem runs_word (word : Keyword) {isPublic : Bool} {k : Bool → Lexeme → Parser α} (hne : word ≠ .pubKw)
    (h : Runs true n (k isPublic (.keyword word)) (.keyword word :: rest) after Q) :
    Runs true n (visibility >>= fun isPublic => peek >>= k isPublic)
      (Print.flag .pubKw isPublic ++ .keyword word :: rest) after Q :=
  runs_flag ⟨_, _, rfl, by simpa using hne⟩ (runs_peek h)

theorem runs_typeParams {names : List String} (hahead : Ahead (· != .symbol .lBracket) rest) :
    Runs true n typeParams (Print.typeParams names ++ rest) rest (· = names) := by
  rcases names with _ | ⟨name, names⟩
  · exact runs_refuse_of_ahead hahead (runs_pure rfl)
  · have hne : Print.items (fun name => [Lexeme.ident name]) (name :: names) ≠ [] := by simp [Print.items]
    rw [Print.typeParams, Print.enclosed_append hne]
    refine runs_accept ((runs_commaList (f := id) (fun name _ more => ?_) fun name _ => ?_).bind
      fun names' hnames => runs_expect fun _ => runs_pure ?_)
    · rw [map_eq_pure_bind]
      exact runs_ident fun _ => runs_pure rfl
    · exact ⟨_, _, rfl, by simp, by simp⟩
    · simpa using hnames

/-! ### Imports -/

theorem runs_selector {s : Selector} {l : Lexeme} (hl : l ≠ .keyword .asKw) :
    Runs true n selector (s.print ++ l :: rest) (l :: rest) fun s' => s'.shape = s.shape := by
  obtain ⟨name, renamed, span⟩ := s
  cases renamed with
  | none => exact runs_ident fun _ => runs_refuse hl (runs_pure rfl)
  | some renamed => exact runs_ident fun _ => runs_accept (runs_ident fun _ => runs_pure rfl)

theorem runs_importRounds {segments : List String} {ending after : List Lexeme}
    {Q : Option (List Selector) → Prop} {fuel : Nat} (hfuel : (Print.segments segments ++ ending).length < fuel)
    (h : ∀ fuel, Runs true n (importRounds (fuel + 1)) ending after fun r => r.1 = [] ∧ Q r.2) :
    Runs true n (importRounds fuel) (Print.segments segments ++ ending) after fun r => r.1 = segments ∧ Q r.2 := by
  induction segments generalizing fuel with
  | nil =>
    obtain ⟨fuel, rfl⟩ : ∃ n, fuel = n + 1 := ⟨fuel - 1, by omega⟩
    exact h fuel
  | cons name segments ih =>
    obtain ⟨fuel, rfl⟩ : ∃ n, fuel = n + 1 := ⟨fuel - 1, by omega⟩
    have hlength : (Print.segments segments ++ ending).length + 2 < fuel + 1 := hfuel
    refine runs_accept (runs_refuse (by simp) (runs_ident fun _ => (ih (by omega)).bind ?_))
    rintro ⟨_, selectors⟩ ⟨rfl, hselectors⟩
    exact runs_pure ⟨rfl, hselectors⟩

theorem runs_importRounds_stop {l : Lexeme} (hl : l ≠ .symbol .colonColon) (fuel : Nat) :
    Runs true n (importRounds (fuel + 1)) (l :: rest) (l :: rest) fun r => r.1 = [] ∧ r.2 = none :=
  runs_refuse hl (runs_pure ⟨rfl, rfl⟩)

theorem runs_importRounds_names {selectors : List Selector} (fuel : Nat) :
    Runs true n (importRounds (fuel + 1)) ((ImportKind.names selectors).print ++ rest) rest
      fun r => r.1 = [] ∧ ∃ selectors', r.2 = some selectors' ∧
        selectors'.map Selector.shape = selectors.map Selector.shape := by
  simp only [ImportKind.print, Print.braced, cons_append, append_assoc, nil_append]
  refine runs_accept (runs_accept ((runs_commaList (fun s _ more => runs_selector (by simp))
    fun s _ => ⟨_, _, rfl, by simp, by simp⟩).bind fun selectors' hs => runs_expect fun _ => ?_))
  exact runs_pure ⟨rfl, selectors', rfl, hs⟩

theorem runs_importDecl {i : Import} (hw : i.Writable) :
    Runs true n importDecl (i.print ++ rest) rest fun i' => i'.shape = i.shape := by
  obtain ⟨segments, kind, span⟩ := i
  obtain ⟨first, segments, rfl⟩ := exists_cons_of_ne_nil hw
  simp only [Import.print, Print.path, cons_append, append_assoc, nil_append]
  refine runs_expect fun _ => runs_ident fun _ => runs_look fun c hc => ?_
  have hfuel : (Print.segments segments ++ (kind.print ++ .symbol .semi :: rest)).length < c.rest.length + 1 := by
    rw [← hc.2, Cursor.lexemes, List.length_map]
    omega
  rcases kind with ⟨_ | renamed⟩ | selectors
  · refine (runs_importRounds (Q := (· = none)) hfuel (runs_importRounds_stop (l := .symbol .semi) (by simp))).bind ?_
    rintro ⟨_, _⟩ ⟨rfl, rfl⟩
    exact runs_refuse (by simp) (runs_expect fun _ => runs_pure rfl)
  · refine (runs_importRounds (Q := (· = none)) hfuel (runs_importRounds_stop (l := .keyword .asKw) (by simp))).bind ?_
    rintro ⟨_, _⟩ ⟨rfl, rfl⟩
    exact runs_accept (runs_ident fun _ => runs_expect fun _ => runs_pure rfl)
  · refine (runs_importRounds (Q := fun found => ∃ selectors', found = some selectors' ∧
      selectors'.map Selector.shape = selectors.map Selector.shape) hfuel runs_importRounds_names).bind ?_
    rintro ⟨_, _⟩ ⟨rfl, selectors', rfl, hs⟩
    refine runs_expect fun _ => runs_pure ?_
    rw [Import.shape, Import.shape, ImportKind.shape, ImportKind.shape, hs]

end Words

/-! ### Declarations -/

section Items

variable {sub : Level} {n start : Nat} (h : sub.Faithful n) {rest : List Lexeme}

include h

theorem runs_fieldDef {f : FieldDef} (hw : f.ty.Writable) (hends : Ahead endsType rest) :
    Runs true n (fieldDef sub) (f.print ++ rest) rest fun f' => f'.shape = f.shape := by
  obtain ⟨name, ty, isPublic, span⟩ := f
  rw [FieldDef.print, append_assoc]
  refine runs_here fun _ => runs_flag ⟨_, _, rfl, rfl⟩ (runs_ident fun _ => runs_expect fun _ => ?_)
  refine (h.type ty rest hw hends).bind fun ty' hty => runs_pure ?_
  rw [FieldDef.shape, FieldDef.shape, hty]

theorem runs_paramDef {p : ParamDef} (hw : p.ty.Writable) (hends : Ahead endsType rest) :
    Runs true n (paramDef sub) (p.print ++ rest) rest fun p' => p'.shape = p.shape := by
  obtain ⟨name, ty, isMutable, span⟩ := p
  rw [ParamDef.print, append_assoc]
  refine runs_here fun _ => runs_flag ⟨_, _, rfl, rfl⟩ (runs_ident fun _ => runs_expect fun _ => ?_)
  refine (h.type ty rest hw hends).bind fun ty' hty => runs_pure ?_
  rw [ParamDef.shape, ParamDef.shape, hty]

theorem runs_variantDef {v : VariantDef} (hw : ∀ ann ∈ v.fields, ann.Writable)
    (hends : Ahead (· != .symbol .lParen) rest) :
    Runs true n (variantDef sub) (v.print ++ rest) rest fun v' => v'.shape = v.shape := by
  obtain ⟨name, _ | ⟨ann, fields⟩, span⟩ := v
  · exact runs_ident fun _ => runs_refuse_of_ahead hends (runs_pure rfl)
  · have hne : Print.items TypeAnn.print (ann :: fields) ≠ [] := by simp [Print.items]
    rw [VariantDef.print, cons_append, Print.enclosed_append hne, ← TypeAnn.printAll_eq]
    refine runs_ident fun _ => runs_accept ?_
    refine (runs_typeArgs h (by decide) ((TypeAnn.allWritable_iff _).2 hw)).bind
      fun fields' hfields => runs_expect fun _ => runs_pure ?_
    simp only [TypeAnn.shapeAll_eq] at hfields
    rw [VariantDef.shape, VariantDef.shape, hfields]

theorem runs_paramList {params : List ParamDef} (hw : ∀ p ∈ params, p.ty.Writable) :
    Runs true n (paramList sub) (.symbol .lParen :: (Print.items ParamDef.print params ++ .symbol .rParen :: rest))
      rest fun params' => params'.map ParamDef.shape = params.map ParamDef.shape := by
  refine runs_expect fun _ => (runs_commaList (fun p hp more => runs_paramDef h (hw p hp) ⟨_, _, rfl, rfl⟩)
    fun p _ => ?_).bind fun params' hparams => runs_expect fun _ => runs_pure hparams
  obtain ⟨name, ty, _ | _, span⟩ := p <;> exact ⟨_, _, rfl, by simp, by simp⟩

theorem runs_returnType {ret : Option TypeAnn} (hw : TypeAnn.OptWritable ret)
    (harrow : Ahead (· != .symbol .arrow) rest) (hends : Ahead endsType rest) :
    Runs true n (returnType sub) (TypeAnn.printOpt .arrow ret ++ rest) rest
      fun ret' => ret'.map TypeAnn.shape = ret.map TypeAnn.shape := by
  cases ret with
  | none => exact runs_refuse_of_ahead harrow (runs_pure rfl)
  | some ann =>
    refine runs_accept ((h.type ann rest hw hends).bind fun ann' hann => ?_)
    exact runs_pure (congrArg some hann)

theorem runs_methodSpec {m : MethodSpec} (hw : Print.SignatureWritable m.params m.ret) :
    Runs true n (methodSpec sub) (m.print ++ rest) rest fun m' => m'.shape = m.shape := by
  obtain ⟨name, params, ret, span⟩ := m
  simp only [MethodSpec.print, Print.signature, cons_append, append_assoc, nil_append]
  refine runs_expect fun _ => runs_ident fun _ => ?_
  refine (runs_paramList h hw.1).bind fun params' hparams => ?_
  refine (runs_returnType h hw.2 ⟨_, _, rfl, rfl⟩ ⟨_, _, rfl, rfl⟩).bind
    fun ret' hret => runs_expect fun _ => runs_pure ?_
  rw [MethodSpec.shape, MethodSpec.shape, hparams, hret]

theorem runs_functionDef {f : FunctionDef} (hw : f.Writable) :
    Runs true n (functionDef sub start f.isPublic) (f.print ++ rest) rest fun f' => f'.shape = f.shape := by
  obtain ⟨name, typeParams, params, ret, body, span, isPublic⟩ := f
  obtain ⟨⟨hparams, hret⟩, hbody⟩ := hw
  simp only [FunctionDef.print, Print.signature, cons_append, append_assoc]
  refine runs_ident fun _ => (runs_typeParams ⟨_, _, rfl, rfl⟩).bind ?_
  rintro _ rfl
  refine (runs_paramList h hparams).bind fun params' hparams' => ?_
  refine (runs_returnType h hret (ahead_block body rest rfl) (ahead_block body rest rfl)).bind fun ret' hret' => ?_
  refine (h.block body rest hbody).bind fun body' hbody' => runs_pure ?_
  rw [FunctionDef.shape, FunctionDef.shape, hparams', hret', hbody']

theorem runs_methodDef {f : FunctionDef} (hw : f.Writable) :
    Runs true n (methodDef sub) (f.printMethod ++ rest) rest fun f' => f'.shape = f.shape := by
  rw [FunctionDef.printMethod, append_assoc]
  exact runs_here fun _ => runs_flag ⟨_, _, rfl, rfl⟩ (runs_expect fun _ => runs_functionDef h hw)

theorem runs_methodDefs {methods : List FunctionDef} (hw : ∀ f ∈ methods, f.Writable) :
    Runs true n (runList .rBrace [] (methodDef sub))
      (methods.flatMap FunctionDef.printMethod ++ .symbol .rBrace :: rest) (.symbol .rBrace :: rest)
      fun methods' => methods'.map FunctionDef.shape = methods.map FunctionDef.shape := by
  refine runs_runList_plain (fun f hf more => runs_methodDef h (hw f hf)) fun f _ => ?_
  obtain ⟨_, _, _, _, _, _, _ | _⟩ := f <;> exact ⟨_, _, rfl, by simp, by simp, by simp⟩

theorem runs_implBlock {block : ImplBlock} (hw : (Item.impl block).Writable) :
    Runs true n (implBlock sub start) (block.print ++ rest) rest fun block' => block'.shape = block.shape := by
  obtain ⟨traitExpr, target, methods, span⟩ := block
  obtain ⟨htrait, htarget, hmethods⟩ := hw
  -- The first type is the trait only if `for` follows it.
  cases traitExpr with
  | none =>
    simp only [ImplBlock.print, Print.braced, Option.elim_none, cons_append, append_assoc, nil_append]
    refine (h.type target _ htarget ⟨_, _, rfl, rfl⟩).bind fun target' htarget' => ?_
    refine runs_refuse (by simp) (runs_expect fun _ => (runs_methodDefs h hmethods).bind
      fun methods' hmethods' => runs_expect fun _ => runs_pure ?_)
    rw [ImplBlock.shape, ImplBlock.shape, htarget', hmethods']
  | some expr =>
    simp only [ImplBlock.print, Print.braced, Option.elim_some, cons_append, append_assoc, nil_append]
    refine (h.type ⟨expr, .zero⟩ _ (htrait expr rfl) ⟨_, _, rfl, rfl⟩).bind ?_
    rintro ⟨expr', span'⟩ hexpr
    refine runs_accept ((h.type target _ htarget ⟨_, _, rfl, rfl⟩).bind fun target' htarget' => ?_)
    refine runs_expect fun _ => (runs_methodDefs h hmethods).bind
      fun methods' hmethods' => runs_expect fun _ => runs_pure ?_
    rw [ImplBlock.shape, ImplBlock.shape, htarget', hmethods', Option.map_some, Option.map_some,
      (TypeAnn.mk.inj hexpr).1]

theorem runs_structDef {d : StructDef} (hw : (Item.struct d).Writable) :
    Runs true n (structDef sub start d.isPublic) (.ident d.name :: (Print.typeParams d.params ++ .symbol .lBrace ::
        (Print.items FieldDef.print d.fields ++ .symbol .rBrace :: rest))) rest
      fun d' => (Item.struct d').shape = (Item.struct d).shape := by
  refine runs_ident fun _ => (runs_typeParams ⟨_, _, rfl, rfl⟩).bind ?_
  rintro _ rfl
  refine runs_expect fun _ => (runs_runList (f := FieldDef.shape) (by decide) (by decide)
    (fun f hf more => runs_fieldDef h (hw f hf) ⟨_, _, rfl, rfl⟩) fun f _ => ?_).bind
    fun fields' hfields => runs_expect fun _ => runs_pure ?_
  · obtain ⟨_, _, _ | _, _⟩ := f <;> exact ⟨_, _, rfl, by simp, by simp, by simp⟩
  · rw [Item.shape, Item.shape, hfields]

theorem runs_enumDef {d : EnumDef} (hw : (Item.enum d).Writable) :
    Runs true n (enumDef sub start d.isPublic) (.ident d.name :: (Print.typeParams d.params ++ .symbol .lBrace ::
        (Print.items VariantDef.print d.variants ++ .symbol .rBrace :: rest))) rest
      fun d' => (Item.enum d').shape = (Item.enum d).shape := by
  refine runs_ident fun _ => (runs_typeParams ⟨_, _, rfl, rfl⟩).bind ?_
  rintro _ rfl
  refine runs_expect fun _ => (runs_runList (f := VariantDef.shape) (by decide) (by decide)
    (fun v hv more => runs_variantDef h (hw v hv) ⟨_, _, rfl, rfl⟩) fun v _ => ?_).bind
    fun variants' hvariants => runs_expect fun _ => runs_pure ?_
  · exact ⟨_, _, rfl, by simp, by simp, by simp⟩
  · rw [Item.shape, Item.shape, hvariants]

theorem runs_traitDef {d : TraitDef} (hw : (Item.trait d).Writable) :
    Runs true n (traitDef sub start d.isPublic) (.ident d.name :: .symbol .lBrace ::
        (d.methods.flatMap MethodSpec.print ++ .symbol .rBrace :: rest)) rest
      fun d' => (Item.trait d').shape = (Item.trait d).shape := by
  refine runs_ident fun _ => runs_expect fun _ => (runs_runList_plain (f := MethodSpec.shape)
    (fun m hm more => runs_methodSpec h (hw m hm)) fun m _ => ?_).bind
    fun methods' hmethods => runs_expect fun _ => runs_pure ?_
  · exact ⟨_, _, rfl, by simp, by simp, by simp⟩
  · rw [Item.shape, Item.shape, hmethods]

theorem runs_constDef {d : ConstDef} (hw : (Item.const d).Writable) :
    Runs true n (constDef sub start d.isPublic) (.ident d.name :: (TypeAnn.printOpt .colon d.ty ++ .symbol .eq ::
        (d.value.print ++ .symbol .semi :: rest))) rest
      fun d' => (Item.const d').shape = (Item.const d).shape := by
  obtain ⟨name, ty, value, span, isPublic⟩ := d
  obtain ⟨hty, hvalue⟩ := hw
  have hread : ∀ ty' : Option TypeAnn, ty'.map TypeAnn.shape = ty.map TypeAnn.shape → Runs true n (do
        let _ ← expect (.symbol .eq)
        let value ← sub.expr
        let close ← expect (.symbol .semi)
        return (⟨name, ty', value, ⟨start, close.stop⟩, isPublic⟩ : ConstDef))
      (.symbol .eq :: (value.print ++ .symbol .semi :: rest)) rest
      fun d' => (Item.const d').shape = (Item.const ⟨name, ty, value, span, isPublic⟩).shape := by
    intro ty' hty'
    refine runs_expect fun _ => (h.expr hvalue ⟨_, _, rfl, rfl⟩).bind
      fun value' hvalue' => runs_expect fun _ => runs_pure ?_
    rw [Item.shape, Item.shape, hty', hvalue']
  refine runs_ident fun _ => ?_
  cases ty with
  | none => exact runs_refuse (by simp) (hread none rfl)
  | some ann =>
    refine runs_accept (Runs.bind (R := fun ty' => ty'.map TypeAnn.shape = some ann.shape) ?_ hread)
    refine (h.type ann _ hty ⟨_, _, rfl, rfl⟩).map fun ann' hann => ?_
    exact congrArg some hann

theorem runs_aliasDef {d : AliasDef} (hw : d.ty.Writable) : Runs true n (aliasDef sub start d.isPublic)
      (.ident d.name :: .symbol .eq :: (d.ty.print ++ .symbol .semi :: rest)) rest
      fun d' => (Item.typeAlias d').shape = (Item.typeAlias d).shape := by
  refine runs_ident fun _ => runs_expect fun _ => (h.type d.ty _ hw ⟨_, _, rfl, rfl⟩).bind
    fun ty' hty => runs_expect fun _ => runs_pure ?_
  rw [Item.shape, Item.shape, hty]

/-- **Declarations are read again.** -/
theorem runs_item {i : Item} (hw : i.Writable) :
    Runs true n (item sub) (i.print ++ rest) rest fun i' => i'.shape = i.shape := by
  refine runs_here fun _ => ?_
  cases i with
  | struct d =>
    exact (runs_word .structKw (by decide) (runs_next fun _ => (runs_structDef h hw).bind
      fun d' hd => runs_pure hd)).of_eq (by simp [Item.print, Print.braced])
  | enum d =>
    exact (runs_word .enumKw (by decide) (runs_next fun _ => (runs_enumDef h hw).bind
      fun d' hd => runs_pure hd)).of_eq (by simp [Item.print, Print.braced])
  | trait d =>
    exact (runs_word .traitKw (by decide) (runs_next fun _ => (runs_traitDef h hw).bind
      fun d' hd => runs_pure hd)).of_eq (by simp [Item.print, Print.braced])
  | impl block =>
    refine runs_refuse (by simp) (runs_peek (runs_next fun _ => ?_))
    exact (runs_implBlock h hw).bind fun block' hb =>
      runs_pure (congrArg Item.impl hb)
  | function f =>
    refine (runs_word .fnKw (by decide) (runs_next fun _ => (runs_functionDef h hw).bind
      fun f' hf => runs_pure ?_)).of_eq (by simp [Item.print, FunctionDef.printMethod])
    exact congrArg Item.function hf
  | const d =>
    exact (runs_word .constKw (by decide) (runs_next fun _ => (runs_constDef h hw).bind
      fun d' hd => runs_pure hd)).of_eq (by simp [Item.print])
  | typeAlias d =>
    exact (runs_word .typeKw (by decide) (runs_next fun _ => (runs_aliasDef h hw).bind
      fun d' hd => runs_pure hd)).of_eq (by simp [Item.print])

end Items

/-! ### Modules -/

def Part.print : Part → List Lexeme
  | .import decl => decl.print
  | .item decl => decl.print

def Part.shape : Part → Part
  | .import decl => .import decl.shape
  | .item decl => .item decl.shape

def Part.Writable : Part → Prop
  | .import decl => decl.Writable
  | .item decl => decl.Writable

theorem ahead_flag {test : Lexeme → Bool} {word : Keyword} {given : Bool} {ls : List Lexeme}
    (hword : test (.keyword word)) (hls : Ahead test ls) : Ahead test (Print.flag word given ++ ls) := by
  cases given
  · exact hls
  · exact ⟨_, _, rfl, hword⟩

theorem ahead_item (i : Item) (rest : List Lexeme) :
    Ahead (fun l => startsItem l && l != .keyword .importKw) (i.print ++ rest) := by
  cases i with
  | impl block => exact ⟨_, _, rfl, rfl⟩
  | function f =>
    rw [Item.print, FunctionDef.printMethod, append_assoc]
    exact ahead_flag rfl ⟨_, _, rfl, rfl⟩
  | _ =>
    rw [Item.print, append_assoc]
    exact ahead_flag rfl ⟨_, _, rfl, rfl⟩

theorem ahead_part (p : Part) (rest : List Lexeme) : Ahead startsItem (p.print ++ rest) := by
  cases p with
  | «import» decl => exact ⟨_, _, rfl, rfl⟩
  | item decl => exact (ahead_item decl rest).imp fun l hl => (Bool.and_eq_true_iff.1 hl).1

theorem runs_part {sub : Level} {n : Nat} (h : sub.Faithful n) {p : Part} {rest : List Lexeme} (hw : p.Writable) :
    Runs true n (part sub) (p.print ++ rest) rest fun p' => p'.shape = p.shape := by
  cases p with
  | «import» decl =>
    have hread : Runs true n _ (decl.print ++ rest) _ _ := runs_importDecl hw
    exact runs_sees (hread.bind fun decl' hdecl => runs_pure (congrArg Part.import hdecl))
  | item decl =>
    have hread : Runs true n _ (decl.print ++ rest) _ _ := runs_item h hw
    obtain ⟨l, more, hl, hne⟩ := ahead_item decl rest
    show Runs true n _ (decl.print ++ rest) _ _
    rw [hl] at hread ⊢
    refine runs_sees_ne (bne_iff_ne.1 (Bool.and_eq_true_iff.1 hne).2) ?_
    exact hread.bind fun decl' hdecl => runs_pure (congrArg Part.item hdecl)

theorem partRounds_of_ok {sub : Level} {fuel : Nat} {c c' : Cursor} {p : Part} {ls : List Lexeme}
    (hc : c.lexemes = ls) (hahead : Ahead startsItem ls) (hrun : part sub c = .ok p c') :
    partRounds sub (fuel + 1) c =
      (p :: (partRounds sub fuel c').1, (partRounds sub fuel c').2.1, (partRounds sub fuel c').2.2) := by
  obtain ⟨l, more, rfl, hl⟩ := hahead
  rw [partRounds, Cursor.token_of_lexemes hc, hrun]
  split
  · cases hl
  · cases hl
  · rfl

/-- **The parts of a module are read again.** -/
theorem exists_partRounds {sub : Level} {n : Nat} (h : sub.Faithful n) {parts : List Part}
    (hw : ∀ p ∈ parts, p.Writable) {fuel : Nat} {c : Cursor} (hc : c.At true (parts.flatMap Part.print ++ [.eof]))
    (hlength : (parts.flatMap Part.print ++ [Lexeme.eof]).length < n) (hfuel : parts.length < fuel) :
    ∃ parts' last, partRounds sub fuel c = (parts', [], last) ∧
      parts'.map Part.shape = parts.map Part.shape := by
  induction parts generalizing fuel c with
  | nil =>
    obtain ⟨fuel, rfl⟩ : ∃ k, fuel = k + 1 := ⟨fuel - 1, by omega⟩
    refine ⟨[], c, ?_, rfl⟩
    rw [partRounds, Cursor.token_of_lexemes hc.2]
  | cons p parts ih =>
    obtain ⟨fuel, rfl⟩ : ∃ k, fuel = k + 1 := ⟨fuel - 1, by omega⟩
    rw [flatMap_cons, append_assoc] at hc hlength
    obtain ⟨p', c', hrun, hc', hle, hp⟩ := runs_part h (hw p mem_cons_self) c hc hlength
    obtain ⟨parts', last, hparts, hshape⟩ := ih (fun q hq => hw q (mem_cons_of_mem p hq)) hc'
      (Nat.lt_of_le_of_lt hle hlength) (Nat.lt_of_succ_lt_succ hfuel)
    refine ⟨p' :: parts', last, ?_, by rw [map_cons, map_cons, hp, hshape]⟩
    rw [partRounds_of_ok hc.2 (ahead_part p _) hrun, hparts]

theorem map_shape_filterMap_import? (parts : List Part) :
    (parts.filterMap Part.import?).map Import.shape = (parts.map Part.shape).filterMap Part.import? := by
  rw [map_filterMap, filterMap_map]
  congr 1
  funext p
  cases p <;> rfl

theorem map_shape_filterMap_item? (parts : List Part) :
    (parts.filterMap Part.item?).map Item.shape = (parts.map Part.shape).filterMap Part.item? := by
  rw [map_filterMap, filterMap_map]
  congr 1
  funext p
  cases p <;> rfl

def partsOf (m : ModuleDef) : List Part := m.imports.map .import ++ m.items.map .item

theorem print_partsOf (m : ModuleDef) : (partsOf m).flatMap Part.print = m.print := by
  rw [partsOf, flatMap_append, flatMap_map, flatMap_map]
  rfl

theorem length_partsOf_le (m : ModuleDef) : (partsOf m).length ≤ m.print.length := by
  rw [← print_partsOf]
  generalize partsOf m = parts
  induction parts with
  | nil => exact Nat.le_refl 0
  | cons p parts ih =>
    obtain ⟨l, more, hl, -⟩ := ahead_part p []
    rw [append_nil] at hl
    simp only [flatMap_cons, List.length_append, length_cons, hl]
    omega

theorem writable_partsOf {m : ModuleDef} (hw : m.Writable) : ∀ p ∈ partsOf m, p.Writable := by
  intro p hp
  rcases mem_append.1 hp with hp | hp
  · obtain ⟨decl, hdecl, rfl⟩ := mem_map.1 hp
    exact hw.1 decl hdecl
  · obtain ⟨decl, hdecl, rfl⟩ := mem_map.1 hp
    exact hw.2 decl hdecl

theorem shape_of_partsOf {m : ModuleDef} {parts : List Part}
    (h : parts.map Part.shape = (partsOf m).map Part.shape) :
    ModuleDef.shape ⟨m.path, parts.filterMap Part.import?, parts.filterMap Part.item?⟩ = m.shape := by
  have himports : (partsOf m).filterMap Part.import? = m.imports := by
    simp [partsOf, filterMap_append, filterMap_map, Function.comp_def, Part.import?]
  have hitems : (partsOf m).filterMap Part.item? = m.items := by
    simp [partsOf, filterMap_append, filterMap_map, Function.comp_def, Part.item?]
  rw [ModuleDef.shape, map_shape_filterMap_import?, map_shape_filterMap_item?, h,
    ← map_shape_filterMap_import?, ← map_shape_filterMap_item?, himports, hitems]
  rfl

end Grammar

/-- **The lexemes of a written module are read as that module**, apart from numbers and spans. -/
theorem ModuleDef.exists_ofTokens_print {m : ModuleDef} (hw : m.Writable) {tokens : List Token}
    (htokens : tokens.map Token.lexeme = m.print ++ [.eof]) (nextId : NodeId) :
    ∃ m' nextId', ModuleDef.ofTokens m.path tokens nextId = .ok (m', nextId') ∧ m'.shape = m.shape := by
  have hlength : (m.print ++ [Lexeme.eof]).length < tokens.length + 1 := by
    rw [← htokens, List.length_map]
    omega
  have hfuel : (Grammar.partsOf m).length < tokens.length + 1 := by
    have hle := Grammar.length_partsOf_le m
    rw [List.length_append] at hlength
    omega
  obtain ⟨parts, last, hparts, hshape⟩ := Grammar.exists_partRounds
    (Grammar.Level.faithful_within (tokens.length + 1)) (Grammar.writable_partsOf hw)
    (c := .start tokens nextId) (by rw [Grammar.print_partsOf]; exact ⟨rfl, htokens⟩)
    (by rw [Grammar.print_partsOf]; exact hlength) hfuel
  refine ⟨_, last.nextId, ?_, Grammar.shape_of_partsOf hshape⟩
  rw [ModuleDef.ofTokens, hparts]

end Keel
