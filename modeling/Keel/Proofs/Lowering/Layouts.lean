/-
# Layouts

A layout has the fields of the struct in the order of their declaration, each with what
its type is stored as.  So a field stands at the same position in both, and the values of
a struct literal that are put in the order of the layout are in that of the declaration.
-/
import Keel.Proofs.Lowering.Finish

namespace Keel

open List

namespace Lowering

open Ir (Storage)

/-! ### Fields -/

def StoredAs (f : FieldSig) (p : String × Storage) : Prop :=
  p.1 = f.name ∧ storage f.ty = .ok p.2

theorem fields_of_structLayout {name : QualName} {sig : StructSig} {layout : Ir.StructLayout}
    (h : structLayout name sig = .ok layout) : List.Forall₂ StoredAs sig.fields layout.fields := by
  unfold structLayout at h
  obtain ⟨fields, hfields, hlayout⟩ := bind_eq_ok.1 h
  cases hlayout
  refine (mapM_eq_ok.1 hfields).imp fun f p hp => ?_
  obtain ⟨ty, hty, hp⟩ := bind_eq_ok.1 hp
  cases hp
  exact ⟨rfl, hty⟩

theorem find?_stored {field : String} {fields : List FieldSig} {stored : List (String × Storage)}
    (h : List.Forall₂ StoredAs fields stored) (start : Nat) {p : String × Storage} {index : Nat}
    (hp : (stored.zipIdx start).find? (fun (p, _) => p.1 == field) = some (p, index)) :
    ∃ f, (fields.zipIdx start).find? (·.1.name == field) = some (f, index) ∧
      storage f.ty = .ok p.2 := by
  induction h generalizing start with
  | nil => cases hp
  | @cons f q fields stored hq _ ih =>
    obtain ⟨hname, hty⟩ := hq
    rw [zipIdx_cons, List.find?_cons] at hp
    rw [zipIdx_cons, List.find?_cons]
    dsimp only at hp ⊢
    rw [hname] at hp
    cases hfield : f.name == field with
    | true =>
      rw [hfield] at hp
      cases hp
      exact ⟨f, rfl, hty⟩
    | false =>
      rw [hfield] at hp
      exact ih (start + 1) hp

def LaidOut (program : CheckedProgram) (structs : Std.TreeMap String Ir.StructLayout) : Prop :=
  ∀ ⦃name sig⦄, program.signatures.structs.get? name = some sig →
    ∃ layout, structs.get? name.text = some layout ∧ structLayout name sig = .ok layout

theorem Context.FieldAt.field? {ctx : Context} (hlaid : LaidOut ctx.program ctx.structs)
    {struct : QualName} {name : String} {ref : Ir.FieldRef} {ty : Storage}
    (h : ctx.FieldAt struct.text name ref ty) {sig : StructSig}
    (hsig : ctx.program.signatures.structs.get? struct = some sig) :
    ∃ f, sig.field? name = some (ref.index, f) ∧ storage f.ty = .ok ty := by
  obtain ⟨layout, written, hlayout, hfind, -⟩ := h
  obtain ⟨layout', hlayout', hsame⟩ := hlaid hsig
  cases hlayout.symm.trans hlayout'
  obtain ⟨f, hf, hty⟩ := find?_stored (fields_of_structLayout hsame) 0 hfind
  exact ⟨f, by rw [StructSig.field?, hf]; rfl, hty⟩

theorem Context.FieldsAt.fieldPath? {ctx : Context} (hlaid : LaidOut ctx.program ctx.structs)
    {ty last : Storage} {names : List String} {refs : List Ir.FieldRef}
    (h : ctx.FieldsAt ty names refs last) {t : Ty} (ht : storage t = .ok ty) {path : List Nat}
    (hpath : ctx.program.signatures.fieldPath? t names = some path) : path = refs.map (·.index) := by
  induction h generalizing t path with
  | nil =>
    unfold Signatures.fieldPath? at hpath
    cases hpath
    rfl
  | @cons struct name names ref refs ty last hfield _ ih =>
    unfold Signatures.fieldPath? at hpath
    split at hpath
    · rename_i h
      cases h
    · rename_i struct' field rest hnames
      cases hnames
      cases ht
      split at hpath
      · rename_i index f hf
        obtain ⟨sig, hsig, hf⟩ := Option.bind_eq_some_iff.1 hf
        obtain ⟨f', hf', hty⟩ := hfield.field? hlaid hsig
        cases hf'.symm.trans hf
        obtain ⟨more, hmore, rfl⟩ := Option.map_eq_some_iff.1 hpath
        rw [ih hty hmore]
        rfl
      · cases hpath
    · cases hpath

/-! ### Struct literals -/

theorem lookup_of_lookup_filter {α : Type} {values : List (String × α)} {name other : String} {value : α}
    (h : (values.filter (·.1 != other)).lookup name = some value) : values.lookup name = some value := by
  induction values with
  | nil => exact h
  | cons p values ih =>
    obtain ⟨key, first⟩ := p
    rw [filter_cons] at h
    rw [lookup_cons]
    split at h
    · rw [lookup_cons] at h
      cases hkey : name == key with
      | true =>
        rw [hkey] at h
        exact h
      | false =>
        rw [hkey] at h
        exact ih h
    · rename_i hkey
      have hkey : key = other := by simpa using hkey
      subst hkey
      cases hname : name == key with
      | true =>
        obtain rfl : name = key := by simpa using hname
        obtain ⟨before, after, hlist, -⟩ := lookup_eq_some_iff.1 h
        have hmem : (name, value) ∈ values.filter (·.1 != name) := by rw [hlist]; simp
        simp at hmem
      | false => exact ih h

theorem lookup_of_arranged? {α : Type} {values : List (String × α)} {stored : List (String × Storage)}
    {ordered : List α} (h : arranged? values stored = some ordered) :
    List.Forall₂ (fun p value => values.lookup p.1 = some value) stored ordered := by
  induction stored generalizing values ordered with
  | nil =>
    cases h
    exact .nil
  | cons p stored ih =>
    obtain ⟨field, ty⟩ := p
    unfold arranged? at h
    split at h
    · rename_i value hvalue
      obtain ⟨rest, hrest, rfl⟩ := Option.map_eq_some_iff.1 h
      exact .cons hvalue ((ih hrest).imp fun _ _ => lookup_of_lookup_filter)
    · cases h

end Lowering
end Keel
