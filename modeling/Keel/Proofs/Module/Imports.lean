/-
# Imports, request by request

An import of a known module asks for one name per selector, and any other import for one name of a
module (`Import.requests`).  Each request is settled on its own: it binds its local name where the
name is free and the request has something to offer, and otherwise gives one report at its place
(`Settles`).  From that relation alone follows what can be said of the scope in the end
(`ImportScope.addImports_settles`): how many names it has, that a name is bound once and stays
bound to the same, and that all it holds exists and may be named.
-/
import Keel.Proofs.Typing.Proper

namespace Keel

open Bool

inductive Binding where
  | module (path : ModulePath)
  | item (target : ImportTarget)

namespace ImportScope

def add (scope : ImportScope) (name : String) : Binding → ImportScope
  | .module path => { scope with aliases := scope.aliases.insert name path }
  | .item target => { scope with names := scope.names.insert name target }

def size (scope : ImportScope) : Nat := scope.aliases.size + scope.names.size

structure Kept (scope later : ImportScope) : Prop where
  aliases : ∀ name path, scope.alias? name = some path → later.alias? name = some path
  names : ∀ name target, scope.names.get? name = some target → later.names.get? name = some target

end ImportScope

/-- `current` may name what `owner` declares as `name`. -/
def ModuleIndex.Exports (index : ModuleIndex) (current owner : ModulePath) (space : Namespace)
    (name : String) : Prop :=
  ∃ info, index.lookup owner space name = some info ∧ canAccess current owner info.isPublic = true

/-- A function or a type, and not both, that `current` may name. -/
def ImportTarget.Exported (index : ModuleIndex) (current : ModulePath) : ImportTarget → Prop
  | .function q => index.Exports current q.module .function q.name ∧
      index.lookup q.module .type q.name = none
  | .type q => index.Exports current q.module .type q.name ∧
      index.lookup q.module .function q.name = none

def ImportTarget.name : ImportTarget → QualName
  | .function q => q
  | .type q => q

inductive Request where
  | whole (i : Import)
  | part (target : ModulePath) (s : Selector)

def Import.requests (index : ModuleIndex) (current : ModulePath) (i : Import) : List Request :=
  match i.kind, index.resolve current i.segments with
  | .names selectors, some target => selectors.map (.part target)
  | _, _ => [.whole i]

namespace Request

def localName : Request → String
  | whole ⟨segments, .module renamed, _⟩ => renamed.getD (segments.getLastD "")
  | whole ⟨segments, .names _, _⟩ => segments.getLastD ""
  | part _ s => s.localName

def span : Request → Span
  | whole i => i.span
  | part _ s => s.span

/-- What a request can be bound to. -/
inductive Offers (index : ModuleIndex) (current : ModulePath) : Request → Binding → Prop
  | whole {i path} (h : index.resolve current i.segments = some path) :
    Offers index current (whole i) (.module path)
  | part {target s t} (hname : t.name = target.qualify s.name) (h : t.Exported index current) :
    Offers index current (part target s) (.item t)

end Request

/-- Requests settled one after the other: each binds one free name or gives one report. -/
inductive Settles (index : ModuleIndex) (current : ModulePath) (file : SourcePath) :
    ImportScope → List Request → ImportScope → List (Report NameProblem) → Prop
  | done (scope) : Settles index current file scope [] scope []
  | bound {scope r b rs later out} (hfree : scope.isBound r.localName = false)
    (hoffer : r.Offers index current b)
    (hrest : Settles index current file (scope.add r.localName b) rs later out) :
    Settles index current file scope (r :: rs) later out
  | refused {scope r rs later out} (problem)
    (hwhy : scope.isBound r.localName = true ∨ ∀ b, ¬ r.Offers index current b)
    (hrest : Settles index current file scope rs later out) :
    Settles index current file scope (r :: rs) later (⟨file, r.span, problem⟩ :: out)

variable {index : ModuleIndex} {current : ModulePath} {file : SourcePath}
  {scope later last : ImportScope} {rs rs' : List Request} {out out' : List (Report NameProblem)}

theorem Settles.append (h : Settles index current file scope rs later out)
    (h' : Settles index current file later rs' last out') :
    Settles index current file scope (rs ++ rs') last (out ++ out') := by
  induction h with
  | done => exact h'
  | bound hfree hoffer _ ih => exact .bound hfree hoffer (ih h')
  | refused problem hwhy _ ih => exact .refused problem hwhy (ih h')

/-! ### What the model does with a request -/

theorem ModuleIndex.contains_of_resolve {segments : List String} {path : ModulePath}
    (h : index.resolve current segments = some path) : index.contains path = true := by
  unfold resolve at h
  split at h
  · cases h
  · simp only at h
    split at h
    · rename_i hown
      exact Option.some.inj h ▸ hown
    · split at h
      · rename_i hfull
        exact Option.some.inj h ▸ hfull
      · cases h

namespace ImportScope

variable {target : ModulePath} {decls : ModuleDecls}

theorem offers_part_iff {s : Selector} {b : Binding} : (Request.part target s).Offers index current b ↔
      (b = .item (.function (target.qualify s.name)) ∧ index.Exports current target .function s.name ∧
        index.lookup target .type s.name = none) ∨
      (b = .item (.type (target.qualify s.name)) ∧ index.Exports current target .type s.name ∧
        index.lookup target .function s.name = none) := by
  constructor
  · rintro (_ | ⟨hname, h⟩)
    rename_i t
    cases t with
    | function q =>
      obtain rfl : q = target.qualify s.name := hname
      exact .inl ⟨rfl, h⟩
    | type q =>
      obtain rfl : q = target.qualify s.name := hname
      exact .inr ⟨rfl, h⟩
  · rintro (⟨rfl, h⟩ | ⟨rfl, h⟩)
    · exact .part rfl h
    · exact .part rfl h

/-- A selector that is taken has something to offer, and a free one that is refused has not. -/
theorem select_offers (current : ModulePath) (scope : ImportScope)
    (hget : index.get? target = some decls) (s : Selector) : match select current target decls scope s with
    | .ok t => scope.isBound s.localName = false ∧
        (Request.part target s).Offers index current (.item t)
    | .error _ => scope.isBound s.localName = true ∨
        ∀ b, ¬ (Request.part target s).Offers index current b := by
  have hlookup : ∀ space, decls.lookup space s.name = index.lookup target space s.name := by
    simp [ModuleIndex.lookup, hget]
  unfold select
  cases hbound : scope.isBound s.localName with
  | true => exact .inl rfl
  | false =>
    -- the function and the type of that name, each there or not
    rw [hlookup, hlookup]
    simp only [offers_part_iff, ModuleIndex.Exports]
    cases hf : index.lookup target .function s.name with
    | some info =>
      cases ht : index.lookup target .type s.name with
      | some => exact .inr (by simp)
      | none =>
        cases ha : canAccess current target info.isPublic <;>
          simp [ha, bind, Except.bind, pure, Except.pure, throw, throwThe, MonadExceptOf.throw]
    | none =>
      cases ht : index.lookup target .type s.name with
      | some info =>
        cases ha : canAccess current target info.isPublic <;>
          simp [ha, bind, Except.bind, pure, Except.pure, throw, throwThe, MonadExceptOf.throw]
      | none => exact .inr (by simp)

theorem settles_addSelectors (hget : index.get? target = some decls) (scope : ImportScope)
    (selectors : List Selector) : Settles index current file scope (selectors.map (.part target))
      (addSelectors current target decls file scope selectors).1
      (addSelectors current target decls file scope selectors).2 := by
  induction selectors generalizing scope with
  | nil => exact .done scope
  | cons s rest ih =>
    have hs := select_offers current scope hget s
    cases hselect : select current target decls scope s with
    | ok t =>
      rw [hselect] at hs
      simp only [addSelectors, hselect]
      exact .bound hs.1 hs.2 (ih _)
    | error problem =>
      rw [hselect] at hs
      simp only [addSelectors, hselect]
      exact .refused problem hs (ih scope)

theorem settles_addImport (scope : ImportScope) (i : Import) :
    Settles index current file scope (i.requests index current)
      (addImport index current file scope i).1 (addImport index current file scope i).2 := by
  obtain ⟨segments, kind, span⟩ := i
  cases hres : index.resolve current segments with
  | none =>
    have hreq : Import.requests index current ⟨segments, kind, span⟩ = [.whole ⟨segments, kind, span⟩] := by
      cases kind <;> simp only [Import.requests, hres]
    simp only [hreq, addImport, hres]
    refine .refused _ (.inr fun b hb => ?_) (.done scope)
    cases hb with
    | whole h => exact absurd (hres.symm.trans h) nofun
  | some target =>
    cases kind with
    | module renamed =>
      simp only [Import.requests, addImport, hres]
      split
      · rename_i hbound
        exact .refused (r := .whole ⟨segments, .module renamed, span⟩) _ (.inl hbound) (.done scope)
      · rename_i hfree
        exact .bound (r := .whole ⟨segments, .module renamed, span⟩)
          (eq_false_iff.2 hfree) (.whole hres) (.done _)
    | names selectors =>
      have hin : index.modules.contains target = true := ModuleIndex.contains_of_resolve hres
      have hget : index.get? target = some (index.modules.get target hin) :=
        Std.TreeMap.getElem?_eq_some_getElem hin
      simp only [Import.requests, addImport, hres, hget]
      exact settles_addSelectors hget scope selectors

theorem settles_addImports (scope : ImportScope) (imports : List Import) :
    Settles index current file scope (imports.flatMap (·.requests index current))
      (addImports index current file scope imports).1
      (addImports index current file scope imports).2 := by
  induction imports generalizing scope with
  | nil => exact .done scope
  | cons i rest ih => exact (settles_addImport scope i).append (ih _)

theorem addImports_append (scope : ImportScope) (imports more : List Import) :
    (addImports index current file scope (imports ++ more)).1 =
      (addImports index current file (addImports index current file scope imports).1 more).1 := by
  induction imports generalizing scope with
  | nil => rfl
  | cons i rest ih => exact ih _

/-! ### What follows for the scope -/

theorem get?_insert_of_free {β : Type} {table : Std.TreeMap String β} {name other : String}
    {new old : β} (hfree : table.contains name = false) (h : table.get? other = some old) :
    (table.insert name new).get? other = some old := by
  have hne : name ≠ other := by
    rintro rfl
    exact eq_false_iff.1 hfree (Typing.contains_iff_get?.2 ⟨old, h⟩)
  rw [Typing.get?_insert, if_neg hne, h]

/-- Two tables that share no name share none once one of them has a name that neither had. -/
theorem apart_insert {β γ : Type} {table : Std.TreeMap String β} {table' : Std.TreeMap String γ}
    (h : ∀ name, ¬ (table.contains name = true ∧ table'.contains name = true)) {name : String}
    (hfree : table'.contains name = false) (b : β) (other : String) :
    ¬ ((table.insert name b).contains other = true ∧ table'.contains other = true) := by
  rintro ⟨hnew, hold⟩
  rw [Std.TreeMap.contains_insert, or_eq_true, beq_iff_eq] at hnew
  rcases hnew with heq | hnew
  · cases Std.LawfulEqOrd.eq_of_compare heq
    exact eq_false_iff.1 hfree hold
  · exact h other ⟨hnew, hold⟩

theorem Kept.refl (scope : ImportScope) : Kept scope scope := ⟨fun _ _ h => h, fun _ _ h => h⟩

theorem Kept.trans (h : Kept scope later) (h' : Kept later last) : Kept scope last :=
  ⟨fun name path hp => h'.aliases name path (h.aliases name path hp),
    fun name target ht => h'.names name target (h.names name target ht)⟩

variable {name : String} {b : Binding}

theorem kept_add (h : scope.isBound name = false) : Kept scope (scope.add name b) := by
  obtain ⟨halias, hname⟩ := or_eq_false_iff.1 h
  cases b with
  | module => exact ⟨fun _ _ => get?_insert_of_free halias, fun _ _ ht => ht⟩
  | item => exact ⟨fun _ _ hp => hp, fun _ _ => get?_insert_of_free hname⟩

theorem size_add (h : scope.isBound name = false) : (scope.add name b).size = scope.size + 1 := by
  obtain ⟨halias, hname⟩ := or_eq_false_iff.1 h
  cases b with
  | module => simp [size, add, Std.TreeMap.size_insert, halias]; omega
  | item => simp [size, add, Std.TreeMap.size_insert, hname]; omega

/-- What holds of every scope that imports make. -/
structure Sound (index : ModuleIndex) (current : ModulePath) (scope : ImportScope) : Prop where
  apart : ∀ name, ¬ (scope.aliases.contains name = true ∧ scope.names.contains name = true)
  aliases : ∀ name path, scope.alias? name = some path → index.contains path = true
  names : ∀ name target, scope.names.get? name = some target → target.Exported index current

theorem sound_empty : Sound index current {} :=
  ⟨by simp, by simp [alias?], by simp⟩

theorem Sound.add {r : Request} (h : Sound index current scope)
    (hfree : scope.isBound name = false) (hoffer : r.Offers index current b) :
    Sound index current (scope.add name b) := by
  obtain ⟨halias, hname⟩ := or_eq_false_iff.1 hfree
  cases hoffer with
  | whole hres =>
    have hpath := ModuleIndex.contains_of_resolve hres
    exact ⟨apart_insert h.apart hname _, Typing.forall_get?_insert h.aliases hpath, h.names⟩
  | part _ hexp =>
    refine ⟨fun other hboth => ?_, h.aliases, Typing.forall_get?_insert h.names hexp⟩
    exact apart_insert (fun x hx => h.apart x hx.symm) halias _ other hboth.symm

end ImportScope

namespace Settles

open ImportScope

variable (h : Settles index current file scope rs later out)

include h

theorem kept : Kept scope later := by
  induction h with
  | done scope => exact .refl scope
  | bound hfree _ _ ih => exact (kept_add hfree).trans ih
  | refused _ _ _ ih => exact ih

theorem size_add_length :
    later.size + out.length = scope.size + rs.length := by
  induction h with
  | done => rfl
  | bound hfree _ _ ih => rw [ih, size_add hfree, List.length_cons]; omega
  | refused _ _ _ ih => rw [List.length_cons, List.length_cons]; omega

theorem sound
    (hs : Sound index current scope) : Sound index current later := by
  induction h with
  | done => exact hs
  | bound hfree hoffer _ ih => exact ih (hs.add hfree hoffer)
  | refused _ _ _ ih => exact ih hs

end Settles

namespace ImportScope

/-- **Imports are accounted for one by one.**  Each request binds one name or gives one report, a
name that is bound stays bound to the same, and all that is bound exists and may be named. -/
theorem addImports_settles (index : ModuleIndex) (current : ModulePath) (file : SourcePath)
    (imports : List Import) :
    let made := addImports index current file {} imports
    let requests := imports.flatMap (·.requests index current)
    Settles index current file {} requests made.1 made.2 ∧
      made.1.size + made.2.length = requests.length ∧ Sound index current made.1 ∧
      ∀ more, Kept made.1 (addImports index current file {} (imports ++ more)).1 := by
  intro made requests
  have hrun : Settles index current file {} requests made.1 made.2 := settles_addImports {} imports
  refine ⟨hrun, ?_, hrun.sound sound_empty, fun more => ?_⟩
  · simpa [size] using hrun.size_add_length
  · rw [addImports_append]
    exact (settles_addImports made.1 more).kept

end ImportScope
end Keel
