/-
# Functions before they are checked

The functions of a program are gathered from its files, and methods come with the
`impl`s.  When the bodies are reached, the functions without type parameters are those
that have a signature, and no two functions share the number of a node.
-/
import Keel.Proofs.Grammar.Writing
import Keel.Proofs.Typing.Effects

namespace Keel

open List SourceFile

/-- One of the files declares the function under this name: on its own, or as a method of some type. -/
def ModuleFile.Declares (files : List ModuleFile) (name : QualName) (f : FunctionDef) : Prop :=
  ∃ file ∈ files, .function f ∈ file.text.items ∧ name = file.module.qualify f.name ∨
    ∃ block owner, .impl block ∈ file.text.items ∧ f ∈ block.methods ∧
      name = file.module.qualify (owner ++ "." ++ f.name)

namespace Typing

/-! ### Where declarations come from -/

namespace Collected

structure Of (items : List Item) (c : Collected) : Prop where
  functions : ∀ name f, c.functions.get? name = some f → .function f.decl ∈ items ∧ f.selfType = none
  structs : ∀ name s, c.decls.structs.get? name = some s → .struct s.decl ∈ items
  enums : ∀ name e, c.decls.enums.get? name = some e → .enum e.decl ∈ items
  aliases : ∀ name a, c.decls.aliases.get? name = some a → .typeAlias a.decl ∈ items
  consts : ∀ name k, c.decls.consts.get? name = some k → .const k.decl ∈ items
  traits : ∀ name t, c.decls.traits.get? name = some t → .trait t.decl ∈ items
  impls : ∀ block ∈ c.impls, .impl block.decl ∈ items

variable {items : List Item} {c : Collected}

theorem get?_insertIfNew {α : Type} {t : Std.TreeMap QualName α} {name other : QualName} {a b : α}
    (h : (t.insertIfNew name a).get? other = some b) :
    t.get? other = some b ∨ name = other ∧ a = b ∧ t.get? name = none := by
  rw [Std.TreeMap.get?_eq_getElem?, Std.TreeMap.getElem?_insertIfNew] at h
  split at h
  · rename_i hnew
    obtain ⟨heq, hnot⟩ := hnew
    refine .inr ⟨Std.LawfulEqCmp.eq_of_compare heq, Option.some.inj h, ?_⟩
    rwa [Std.TreeMap.get?_eq_getElem?, Std.TreeMap.getElem?_eq_none]
  · exact .inl h

theorem Of.add (h : c.Of items) {item : Item} (hitem : item ∈ items) (scope : ModuleScope) :
    (c.add scope item).Of items := by
  cases item with
  | function d =>
    refine { h with functions := fun name f hf => ?_ }
    rcases get?_insertIfNew hf with hold | ⟨-, rfl, -⟩
    · exact h.functions name f hold
    · exact ⟨hitem, rfl⟩
  | struct d =>
    refine { h with structs := fun name s hs => ?_ }
    rcases get?_insertIfNew hs with hold | ⟨-, rfl, -⟩
    · exact h.structs name s hold
    · exact hitem
  | enum d =>
    refine { h with enums := fun name e he => ?_ }
    rcases get?_insertIfNew he with hold | ⟨-, rfl, -⟩
    · exact h.enums name e hold
    · exact hitem
  | typeAlias d =>
    refine { h with aliases := fun name a ha => ?_ }
    rcases get?_insertIfNew ha with hold | ⟨-, rfl, -⟩
    · exact h.aliases name a hold
    · exact hitem
  | const d =>
    refine { h with consts := fun name k hk => ?_ }
    rcases get?_insertIfNew hk with hold | ⟨-, rfl, -⟩
    · exact h.consts name k hold
    · exact hitem
  | trait d =>
    refine { h with traits := fun name t ht => ?_ }
    rcases get?_insertIfNew ht with hold | ⟨-, rfl, -⟩
    · exact h.traits name t hold
    · exact hitem
  | impl block =>
    exact { h with impls := forall_mem_cons.2 ⟨hitem, h.impls⟩ }

/-- What every item of every file keeps is true of what is gathered. -/
theorem ofFiles_induction {P : Collected → Prop} {files : List ModuleFile} (hstart : ∀ index, P { decls := { index } })
    (hadd : ∀ file ∈ files, ∀ item ∈ file.text.items, ∀ scope : ModuleScope, scope.path = file.module →
      ∀ c, P c → P (c.add scope item)) : P (ofFiles files).1 := by
  rw [ofFiles]
  have hfiles (rest : List ModuleFile) (index : ModuleIndex) (c : Collected) (hc : P c) (hrest : ∀ file ∈ rest, file ∈ files) :
      P (addFiles index c rest).1 := by
    induction rest generalizing c with
    | nil => exact hc
    | cons file rest ih =>
      obtain ⟨hfile, hrest⟩ := forall_mem_cons.1 hrest
      refine ih _ ?_ hrest
      exact List.foldlRecOn _ _ hc fun c hc item hitem => hadd file hfile item hitem _ rfl c hc
  exact hfiles files _ _ (hstart _) fun _ => id

theorem of_ofFiles (files : List ModuleFile) : (ofFiles files).1.Of (files.flatMap (·.text.items)) :=
  ofFiles_induction (fun _ => by constructor <;> simp) fun file hfile item hitem scope _ _ hc =>
    hc.add (mem_flatMap.2 ⟨file, hfile, hitem⟩) scope

/-- The functions and methods that are gathered are declared under the names they get. -/
structure Homed (files : List ModuleFile) (c : Collected) : Prop where
  functions : ∀ name f, c.functions.get? name = some f → ModuleFile.Declares files name f.decl
  methods : ∀ block ∈ c.impls, ∀ m ∈ block.decl.methods, ∀ owner,
    ModuleFile.Declares files (block.scope.path.qualify (owner ++ "." ++ m.name)) m

theorem homed_ofFiles (files : List ModuleFile) : (ofFiles files).1.Homed files := by
  refine ofFiles_induction (fun _ => ⟨by simp, by simp⟩) fun file hfile item hitem scope hscope c hc => ?_
  cases item with
  | function d =>
    refine ⟨fun name f hf => ?_, hc.methods⟩
    rcases get?_insertIfNew hf with hold | ⟨rfl, rfl, -⟩
    · exact hc.functions name f hold
    · exact ⟨file, hfile, .inl ⟨hitem, by rw [hscope]⟩⟩
  | impl block =>
    refine ⟨hc.functions, forall_mem_cons.2 ⟨fun m hm owner => ?_, hc.methods⟩⟩
    exact ⟨file, hfile, .inr ⟨block, owner, hitem, hm, by rw [hscope]⟩⟩
  | _ => exact ⟨hc.functions, hc.methods⟩

end Collected

/-! ### Functions whose nodes are apart -/

namespace State

/-- There are nodes beside those of the functions, with numbers of their own. -/
structure Room (s : State) (nodes : List Node) : Prop where
  spread : s.Spread
  numbered : Numbered 0 s.nextId nodes
  apart : ∀ name g, s.functions.get? name = some g →
    ∀ node ∈ g.decl.body.nodes, ∀ other ∈ nodes, node.id ≠ other.id

namespace Room

variable {s s' : State} {name : QualName} {g : FunctionDecl} {nodes more : List Node}

theorem perm (h : s.Room nodes) (hp : nodes.Perm more) : s.Room more where
  spread := h.spread
  numbered :=
    { le := h.numbered.le
      nodup := (hp.map Node.id).nodup_iff.1 h.numbered.nodup
      bounds := fun node hnode => h.numbered.bounds node (hp.mem_iff.2 hnode) }
  apart name g hg node hnode other hother := h.apart name g hg node hnode other (hp.mem_iff.2 hother)

theorem of_append (h : s.Room (more ++ nodes)) : s.Room nodes where
  spread := h.spread
  numbered :=
    { le := h.numbered.le
      nodup := (nodup_append.1 (map_append ▸ h.numbered.nodup)).2.1
      bounds := fun node hnode => h.numbered.bounds node (mem_append_right _ hnode) }
  apart name g hg node hnode other hother :=
    h.apart name g hg node hnode other (mem_append_right _ hother)

/-- At most one function is new, and it takes its nodes out of the room. -/
theorem take (h : s.Room (g.decl.body.nodes ++ nodes)) (hnext : s'.nextId = s.nextId)
    (hfun : ∀ other g', s'.functions.get? other = some g' →
      s.functions.get? other = some g' ∨ name = other ∧ g = g') : s'.Room nodes := by
  have hparts := nodup_append.1 (map_append ▸ h.numbered.nodup)
  have hnew : ∀ other g', s.functions.get? other = some g' → ∀ node ∈ g'.decl.body.nodes,
      ∀ node' ∈ g.decl.body.nodes, node.id ≠ node'.id := fun other g' hg' node hnode node' hnode' =>
    h.apart other g' hg' node hnode node' (mem_append_left _ hnode')
  refine ⟨⟨fun other g' hg' => ?_, fun first f second f' hf hf' hne node hnode node' hnode' => ?_⟩,
    hnext ▸ h.of_append.numbered, fun other g' hg' node hnode node' hnode' => ?_⟩
  · rw [hnext]
    rcases hfun other g' hg' with hold | ⟨-, rfl⟩
    · exact h.spread.numbered other g' hold
    · exact ⟨Nat.zero_le _, hparts.1, fun node hnode => h.numbered.bounds node (mem_append_left _ hnode)⟩
  · rcases hfun first f hf with hold | ⟨rfl, rfl⟩ <;> rcases hfun second f' hf' with hold' | ⟨rfl, rfl⟩
    · exact h.spread.apart first f second f' hold hold' hne node hnode node' hnode'
    · exact hnew first f hold node hnode node' hnode'
    · exact (hnew second f' hold' node' hnode' node hnode).symm
    · exact absurd rfl hne
  · rcases hfun other g' hg' with hold | ⟨-, rfl⟩
    · exact h.apart other g' hold node hnode node' (mem_append_right _ hnode')
    · exact hparts.2.2 _ (mem_map_of_mem hnode) _ (mem_map_of_mem hnode')

end Room

end State

/-- What the checker starts from. -/
def Collected.start (c : Collected) (nextId : Nat) : State :=
  { functions := c.functions, nextId := nextId }

/-- The nodes of the methods in `impl`s. -/
def implNodes (impls : List (Declared ImplBlock)) : List Node :=
  impls.flatMap fun block => block.decl.methods.flatMap (·.body.nodes)

namespace Collected

variable {c : Collected} {n : Nat} {nodes : List Node}

theorem room_add (scope : ModuleScope) {item : Item}
    (h : (c.start n).Room (implNodes c.impls ++ (item.nodes ++ nodes))) :
    ((c.add scope item).start n).Room (implNodes (c.add scope item).impls ++ nodes) := by
  have hskip : (c.start n).Room (implNodes c.impls ++ nodes) := by
    have hfront : (c.start n).Room (item.nodes ++ (implNodes c.impls ++ nodes)) :=
      h.perm (perm_append_comm_assoc _ _ _)
    exact hfront.of_append
  cases item with
  | function d =>
    refine State.Room.take (s := c.start n) (g := ⟨⟨scope, d⟩, none⟩) (h.perm ?_) rfl
      fun other g' hg' => (get?_insertIfNew hg').imp_right fun hnew => ⟨hnew.1, hnew.2.1⟩
    exact perm_append_comm_assoc _ _ _
  | impl block =>
    refine h.perm ?_
    show (implNodes c.impls ++ (block.methods.flatMap (·.body.nodes) ++ nodes)).Perm
      (block.methods.flatMap (·.body.nodes) ++ implNodes c.impls ++ nodes)
    rw [append_assoc]
    exact perm_append_comm_assoc _ _ _
  | struct _ | enum _ | typeAlias _ | const _ | trait _ => exact hskip

theorem room_foldl_add (scope : ModuleScope) {items : List Item}
    (h : (c.start n).Room (implNodes c.impls ++ (items.flatMap Item.nodes ++ nodes))) :
    ((items.foldl (Collected.add scope) c).start n).Room
      (implNodes (items.foldl (Collected.add scope) c).impls ++ nodes) := by
  induction items generalizing c with
  | nil => exact h
  | cons item rest ih =>
    rw [flatMap_cons, append_assoc] at h
    exact ih (room_add scope h)

variable {files : List ModuleFile}

theorem room_addFiles (index : ModuleIndex)
    (h : (c.start n).Room (implNodes c.impls ++ files.flatMap (·.text.nodes))) :
    ((addFiles index c files).1.start n).Room (implNodes (addFiles index c files).1.impls) := by
  induction files generalizing c with
  | nil => simpa [addFiles] using h
  | cons file rest ih =>
    rw [flatMap_cons] at h
    exact ih (room_foldl_add _ h)

theorem room_ofFiles (h : Numbered 0 n (files.flatMap (·.text.nodes))) :
    ((ofFiles files).1.start n).Room (implNodes (ofFiles files).1.impls) := by
  refine room_addFiles _ ⟨⟨?_, ?_⟩, h, ?_⟩ <;> simp [start]

end Collected

/-! ### Signatures -/

structure Signs (names : List QualName) (s s' : State) : Prop extends Idle s s' where
  signed : ∀ name, s'.Signed name ↔ name ∈ names ∨ s.Signed name

variable {d : Declarations} {s s₁ s₂ : State} {names more : List QualName} {name : QualName}
  {g : FunctionDecl}

theorem Passive.signs (h : Passive s s₁) : Signs [] s s₁ :=
  ⟨h.toIdle, fun name => by simp [State.Signed, h.signatures]⟩

theorem Signs.trans (h : Signs names s s₁) (h' : Signs more s₁ s₂) : Signs (names ++ more) s s₂ :=
  ⟨h.toIdle.trans h'.toIdle, fun name => by rw [h'.signed, h.signed, mem_append]; tauto⟩

theorem signs_buildFunction (hg : s.functions.get? name = some g) : Signs [name] s (buildFunction name d s).2 := by
  obtain ⟨s₁, sig, hpassive, hbuilt⟩ := resolves_buildFunction (d := d) hg
  rw [hbuilt]
  refine ⟨{ hpassive.toIdle with }, fun other => ?_⟩
  rw [State.signed_insert (s := s₁) rfl, mem_singleton, State.Signed, State.Signed,
    hpassive.signatures, eq_comm]

def plainNames (functions : List (QualName × FunctionDecl)) : List QualName :=
  (functions.filter (·.2.decl.typeParams.isEmpty)).map (·.1)

theorem mem_plainNames {t : Std.TreeMap QualName FunctionDecl} :
    name ∈ plainNames t.toList ↔ ∃ g, t.get? name = some g ∧ g.decl.typeParams = [] := by
  simp [plainNames, Std.TreeMap.mem_toList_iff_getElem?_eq_some]

theorem nodup_plainNames (t : Std.TreeMap QualName FunctionDecl) : (plainNames t.toList).Nodup := by
  refine pairwise_map.2 (List.Pairwise.filter _ (t.distinct_keys_toList.imp fun h heq => h ?_))
  rw [heq]
  exact Std.ReflCmp.compare_self

theorem signs_collectSignatures :
    Sat d s collectSignatures fun _ s' => Signs (plainNames s.functions.toList) s s' := by
  have hr := Resolver.resolving_within (d := d) d.depth
  refine Sat.bind (R := fun r s' => r = d.resolver ∧ s = s') ⟨rfl, rfl⟩ ?_
  rintro _ _ ⟨rfl, rfl⟩
  refine Sat.bind (R := fun decls s' => d = decls ∧ s = s') ⟨rfl, rfl⟩ ?_
  rintro _ _ ⟨rfl, rfl⟩
  -- a type, and the same for all that follow
  have hbuild {s₀ : State} (h : Passive s s₀) (nominal : Nominal) (name : QualName) :
      Passive s (buildNominal d.resolver nominal name ∅ none d s₀).2 :=
    h.trans (passive_buildNominal hr nominal name ∅ none s₀)
  refine Sat.bind (sat_forIn (fun _ s' => Passive s s') (Passive.refl s) ?_) fun _ s₁ h₁ => ?_
  · rintro ⟨name, decl⟩ _ s₀ h
    dsimp only
    split
    · exact ⟨rfl, hbuild h (.struct decl) name⟩
    · exact ⟨rfl, h⟩
  refine Sat.bind (sat_forIn (fun _ s' => Passive s s') h₁ ?_) fun _ s₂ hpassive => ?_
  · rintro ⟨name, decl⟩ _ s₀ h
    dsimp only
    split
    · exact ⟨rfl, hbuild h (.enum decl) name⟩
    · exact ⟨rfl, h⟩
  refine Sat.bind (R := fun r s' => r = s₂ ∧ s₂ = s') ⟨rfl, rfl⟩ ?_
  rintro _ _ ⟨rfl, rfl⟩
  refine Sat.bind (sat_forIn (fun rest s' => ∃ done, s.functions.toList = done ++ rest ∧
    Signs (plainNames done) s s') ⟨[], by rw [hpassive.functions]; rfl, hpassive.signs⟩ ?_) ?_
  · rintro ⟨name, f⟩ rest s₃ ⟨done, hdone, hsigns⟩
    have hf : s₃.functions.get? name = some f := by
      rw [hsigns.functions, Std.TreeMap.get?_eq_getElem?, ← Std.TreeMap.mem_toList_iff_getElem?_eq_some, hdone]
      simp
    dsimp only
    split
    · rename_i hplain
      refine ⟨rfl, done ++ [(name, f)], by rw [hdone]; simp, ?_⟩
      have hnames : plainNames (done ++ [(name, f)]) = plainNames done ++ [name] := by
        simp [plainNames, hplain]
      rw [hnames]
      exact hsigns.trans (signs_buildFunction (d := d) hf)
    · rename_i hplain
      refine ⟨rfl, done ++ [(name, f)], by rw [hdone]; simp, ?_⟩
      have hnames : plainNames (done ++ [(name, f)]) = plainNames done := by
        simp [plainNames, hplain]
      rw [hnames]
      exact hsigns
  · rintro _ s' ⟨done, hdone, hsigns⟩
    rw [hdone, append_nil]
    exact hsigns

/-! ### Before the bodies -/

/-- The functions are declared ones that have a signature or type parameters, and nothing
has been checked. -/
structure Founded (declares : QualName → FunctionDef → Prop) (nodes : List Node) (s : State) : Prop where
  linked : s.Linked
  room : s.Room nodes
  declared : ∀ name g, s.functions.get? name = some g → declares name g.decl
  pending : s.pending = []
  checked : s.checked = ∅
  resolutions : s.resolutions = {}

section Founded

variable {declares : QualName → FunctionDef → Prop} {nodes : List Node}

theorem Founded.passive (h : Founded declares nodes s) (h' : Passive s s₁) : Founded declares nodes s₁ where
  linked := h.linked.congr h'.functions h'.signatures
  room :=
    { spread := h.room.spread.congr h'.functions h'.nextId
      numbered := h'.nextId ▸ h.room.numbered
      apart := h'.functions ▸ h.room.apart }
  declared := h'.functions ▸ h.declared
  pending := h'.pending.trans h.pending
  checked := h'.checked.trans h.checked
  resolutions := h'.resolutions.trans h.resolutions

theorem founded_collectSignatures {c : Collected} {n : Nat} (hroom : (c.start n).Room nodes)
    (hdefs : ∀ name g, c.functions.get? name = some g → declares name g.decl) :
    Sat d (c.start n) collectSignatures fun _ s' => Founded declares nodes s' := by
  refine signs_collectSignatures.imp fun _ s' h => ?_
  have hsigned : ∀ name, s'.Signed name ↔
      ∃ g, s'.functions.get? name = some g ∧ g.decl.typeParams = [] := fun name => by
    rw [h.signed, h.functions, mem_plainNames]
    simp [State.Signed, Collected.start]
  refine ⟨⟨fun name => (hsigned name).1, fun name g hg hplain => (hsigned name).2 ⟨g, hg, hplain⟩⟩,
    ⟨⟨?_, ?_⟩, h.nextId ▸ hroom.numbered, h.functions ▸ hroom.apart⟩, h.functions ▸ hdefs,
    h.pending, h.checked, h.resolutions⟩
  · rw [h.functions, h.nextId]
    exact hroom.spread.numbered
  · rw [h.functions]
    exact hroom.spread.apart

theorem Founded.method {method : FunctionDef} {target : Ty} {scope : ModuleScope}
    (h : Founded declares (method.body.nodes ++ nodes) s) (hdef : declares name method) (hplain : method.typeParams = []) :
    Sat d s (do
      setFunction name { scope := scope, decl := method, selfType := some target }
      buildFunction name) fun _ s' => Founded declares nodes s' := by
  let g : FunctionDecl := { scope := scope, decl := method, selfType := some target }
  let s₁ : State := { s with functions := s.functions.insert name g }
  show Founded declares nodes (buildFunction name d s₁).2
  have hg : s₁.functions.get? name = some g := by simp [s₁]
  obtain ⟨s₂, sig, hpassive, hbuilt⟩ := resolves_buildFunction (d := d) hg
  rw [hbuilt]
  have hfunctions : s₂.functions = s.functions.insert name g := hpassive.functions
  have hmade : ∀ other g', s₂.functions.get? other = some g' →
      s.functions.get? other = some g' ∨ name = other ∧ g = g' := fun other g' hg' => by
    rw [hfunctions, get?_insert] at hg'
    split at hg'
    · exact .inr ⟨‹_›, Option.some.inj hg'⟩
    · exact .inl hg'
  have hsignatures : s₂.signatures.functions.insert name sig = s.signatures.functions.insert name sig :=
    congrArg (·.insert name sig) hpassive.signatures
  refine ⟨h.linked.insert hplain hfunctions hsignatures, h.room.take (g := g) hpassive.nextId hmade,
    fun other g' hg' => ?_, hpassive.pending.trans h.pending, hpassive.checked.trans h.checked,
    hpassive.resolutions.trans h.resolutions⟩
  · rcases hmade other g' hg' with hold | ⟨rfl, rfl⟩
    · exact h.declared other g' hold
    · exact hdef

theorem Founded.drop {more : List Node} (h : Founded declares (more ++ nodes) s) : Founded declares nodes s :=
  { h with room := h.room.of_append }

theorem founded_declareMethods {methods : List FunctionDef} (scope : ModuleScope) (owner : String)
    (target : Ty) (h : Founded declares (methods.flatMap (·.body.nodes) ++ nodes) s)
    (hdefs : ∀ m ∈ methods, declares (scope.path.qualify (owner ++ "." ++ m.name)) m) :
    Sat d s (declareMethods scope owner target methods) fun _ s' => Founded declares nodes s' := by
  induction methods generalizing s with
  | nil => exact h
  | cons method rest ih =>
    obtain ⟨hmethod, hrest⟩ := forall_mem_cons.1 hdefs
    rw [flatMap_cons, append_assoc] at h
    unfold declareMethods
    extract_lets site name
    split
    · exact (Resolving.sat (resolving_report _ _)).bind fun _ _ hs => ih (h.drop.passive hs) hrest
    · rename_i hplain
      refine (Resolving.sat (resolving_function? name)).bind fun _ s₁ hs₁ => ?_
      have h₁ := h.passive hs₁
      split
      · exact (Resolving.sat (resolving_report _ _)).bind fun _ _ hs => ih (h₁.drop.passive hs) hrest
      · have hstep : Sat d s₁ (do
            setFunction name { scope := scope, decl := method, selfType := some target }
            buildFunction name) fun _ s' => Founded declares _ s' :=
          h₁.method hmethod (by simpa using hplain)
        exact hstep.bind fun _ s₂ h₂ => (ih h₂ hrest).bind fun _ _ h₃ => sat_pure h₃

theorem peeks_isInstance (name : QualName) : Peeks d (isInstance name) := by
  refine (Peeks.struct? name).bind fun sig => ?_
  cases sig with
  | some sig => exact .pure _
  | none => exact (Peeks.enum? name).bind fun _ => .pure _

theorem peeks_implOwner? (scope : ModuleScope) (site : Site) (target : Ty) :
    Peeks d (implOwner? scope site target) := by
  have howner (name : QualName) : Peeks d (if name.module ≠ scope.path then do
      report site (.implTarget target)
      return none
    else do
      if ← isInstance name then
        report site .implOnInstance
        return none
      return some name.name) := by
    split
    · exact (Peeks.report _ _).bind fun _ => .pure _
    · refine (peeks_isInstance name).bind fun isInst => ?_
      split
      · exact (Peeks.report _ _).bind fun _ => .pure _
      · exact .pure _
  cases target with
  | error => exact .pure _
  | struct name | enum name => exact howner name
  | _ => exact (Peeks.report _ _).bind fun _ => .pure _

theorem peeks_checkTraitImpl (scope : ModuleScope) (span : Span) (traitExpr : TypeExpr)
    (target : Ty) (owner : String) (methods : List FunctionDef) :
    Peeks d (checkTraitImpl scope span traitExpr target owner methods) := by
  have hrequired (t : Declared TraitDef) (env : TypeEnv) (m : MethodSpec) :
      Peeks d (checkRequired scope span owner t env m) := by
    refine Peeks.bind (.look fun _ => .pure _) fun actual => ?_
    split
    · exact .report _ _
    · refine (Peeks.typesOf _ _ _).bind fun _ => (Peeks.returnTypeOf _ _ _).bind fun _ => ?_
      split
      · exact .report _ _
      · exact .pure _
  unfold checkTraitImpl
  split
  · refine (Peeks.lookup _ _ _ _).bind fun _ => (Peeks.found? _ _ _ _).bind fun _ => .read ?_
    split
    · exact .pure _
    · refine (Peeks.forM fun _ => hrequired _ _ _).bind fun _ => ?_
      refine (Peeks.forIn fun _ _ => ?_).bind fun _ => .pure _
      exact (Peeks.report _ _).when_bind (.pure _)
  · exact .report _ _

theorem founded_checkImpl {block : Declared ImplBlock}
    (h : Founded declares (block.decl.methods.flatMap (·.body.nodes) ++ nodes) s)
    (hdefs : ∀ m ∈ block.decl.methods, ∀ owner, declares (block.scope.path.qualify (owner ++ "." ++ m.name)) m) :
    Sat d s (checkImpl block) fun _ s' => Founded declares nodes s' := by
  refine (Resolving.sat (Peeks.typeOf _ _ _).resolving).bind fun target s₁ h₁ => ?_
  refine (Resolving.sat (peeks_implOwner? _ _ _).resolving).bind fun owner s₂ h₂ => ?_
  have hs₂ := (h.passive h₁).passive h₂
  split
  · exact hs₂.drop
  · refine (founded_declareMethods _ _ _ hs₂ fun m hm => hdefs m hm _).bind fun methods s₃ h₃ => ?_
    split
    · exact h₃
    · exact (Resolving.sat (peeks_checkTraitImpl _ _ _ _ _ _).resolving).imp fun _ _ h₄ => h₃.passive h₄

theorem founded_checkSignatures {c : Collected} {n : Nat} {files : List ModuleFile} (hhomed : c.Homed files)
    (hroom : (c.start n).Room (implNodes c.impls)) : Sat d (c.start n) (checkSignatures c.impls.reverse) fun _ s' =>
      Founded (ModuleFile.Declares files) [] s' := by
  have hperm : (implNodes c.impls).Perm (implNodes c.impls.reverse) :=
    (reverse_perm c.impls).symm.flatMap_right _
  refine (founded_collectSignatures (hroom.perm hperm) hhomed.functions).bind fun _ s₁ h₁ => ?_
  refine (sat_forM (fun rest s' => Founded (ModuleFile.Declares files) (implNodes rest) s' ∧
    ∀ block ∈ rest, block ∈ c.impls) ⟨h₁, fun _ => mem_reverse.1⟩ ?_).imp fun _ _ h => h.1
  rintro block rest s₂ ⟨h₂, hrest⟩
  obtain ⟨hblock, hrest⟩ := forall_mem_cons.1 hrest
  exact (founded_checkImpl h₂ (hhomed.methods block hblock)).imp fun _ _ h₃ => ⟨h₃, hrest⟩

theorem peeks_checkConsts : Peeks d checkConsts := by
  refine .resolver (.read ?_)
  exact (Peeks.forIn fun _ _ => (Peeks.ask (.const _ _)).bind fun _ => .pure _).bind fun _ => .pure _

end Founded

/-! ### From files to the last state -/

end Typing

open Typing

namespace SourceFile

def modules (files : List SourceFile) : List ModuleDef × Nat :=
  withPrelude Prelude.text (readAll files 0).1 (readAll files 0).2.1

def items (files : List SourceFile) : List Item := (modules files).1.flatMap (·.items)

def moduleFiles (files : List SourceFile) : List ModuleFile :=
  (modules files).1.map fun m => ⟨ModulePath.ofFile m.path, m⟩

/-- The declarations of files and of the prelude by their names, and what is wrong with
names. -/
def gathered (files : List SourceFile) : Collected × List (Report NameProblem) :=
  Collected.ofFiles ((modules files).1.map fun m => ⟨ModulePath.ofFile m.path, m⟩)

end SourceFile

namespace Typing

variable {modules all : List ModuleDef} {files : List SourceFile} {p : CheckedProgram}

theorem fresh_withPrelude {text : String} {n last : Nat}
    (h : Grammar.Fresh 0 n (modules.flatMap ModuleDef.nodes) (modules.flatMap ModuleDef.foundTypes))
    (hall : withPrelude text modules n = (all, last)) :
    Grammar.Fresh 0 last (all.flatMap ModuleDef.nodes) (all.flatMap ModuleDef.foundTypes) := by
  rw [withPrelude] at hall
  split at hall
  · rename_i prelude n' hprelude
    obtain ⟨rfl, rfl⟩ := Prod.mk.inj hall
    rw [flatMap_append, flatMap_append]
    simpa using h.append (ModuleDef.fresh_of_ofText hprelude)
  · obtain ⟨rfl, rfl⟩ := Prod.mk.inj hall
    exact h

namespace Collected

def afterSignatures (c : Collected) (n : Nat) : State :=
  (checkSignatures c.impls.reverse c.decls (c.start n)).2

def afterConsts (c : Collected) (n : Nat) : State := (checkConsts c.decls (c.afterSignatures n)).2

def afterBodies (c : Collected) (n : Nat) : State := (checkBodies c.decls (c.afterConsts n)).2

end Collected

theorem founded_afterConsts {c : Collected} {n : Nat} {files : List ModuleFile} (hhomed : c.Homed files)
    (hroom : (c.start n).Room (implNodes c.impls)) :
    Founded (ModuleFile.Declares files) [] (c.afterConsts n) := by
  have hsigned : Founded (ModuleFile.Declares files) [] (c.afterSignatures n) := by
    rw [Collected.afterSignatures]
    exact founded_checkSignatures hhomed hroom
  rw [Collected.afterConsts]
  exact hsigned.passive (peeks_checkConsts.resolving _).toPassive

theorem eq_of_phase {decls : Declarations} {c : Check Unit} (h : phase decls c s = .ok s₁) :
    s₁ = (c decls s).2 ∧ s₁.Clean := by
  unfold phase at h
  dsimp only at h
  split at h
  · cases h
    exact ⟨rfl, isEmpty_iff.1 ‹_›⟩
  · cases h

/-- The declarations come from these files, and their nodes have numbers of their own. -/
structure Gathers (files : List SourceFile) (c : Collected) (n : Nat) : Prop where
  of : c.Of (items files)
  homed : c.Homed (moduleFiles files)
  found : (items files).flatMap Item.foundTypes = []
  room : (c.start n).Room (implNodes c.impls)

theorem modules_of_readAll {n : Nat} (hread : readAll files 0 = (modules, n, [])) :
    withPrelude Prelude.text modules n = SourceFile.modules files := by
  rw [SourceFile.modules, hread]

theorem gathers_of_readAll {n : Nat} (hread : readAll files 0 = (modules, n, [])) :
    Gathers files (SourceFile.gathered files).1 (SourceFile.modules files).2 := by
  rcases hmodules : SourceFile.modules files with ⟨all, last⟩
  have hall := (modules_of_readAll hread).trans hmodules
  have hfresh := fresh_withPrelude (fresh_of_readAll hread) hall
  rw [SourceFile.gathered, hmodules]
  refine ⟨?_, ?_, ?_, ?_⟩
  · rw [items, hmodules]
    simpa only [flatMap_map] using Collected.of_ofFiles (all.map fun m => ⟨ModulePath.ofFile m.path, m⟩)
  · rw [moduleFiles, hmodules]
    exact Collected.homed_ofFiles _
  · rw [items, hmodules]
    simpa [ModuleDef.foundTypes, flatMap_assoc] using hfresh.types_eq
  · refine Collected.room_ofFiles ?_
    simpa [flatMap_map] using hfresh.numbered

/-- The files are a program, and this is what the checker has gathered from them. -/
structure Makes (files : List SourceFile) (p : CheckedProgram) (c : Collected) (n : Nat) : Prop
    extends Gathers files c n where
  clean : (c.afterBodies n).Clean
  program : p = (c.afterBodies n).program

theorem ends_of_checkModules {n last : Nat} {c : Collected} (h : checkModules modules n = .ok p)
    (hall : withPrelude Prelude.text modules n = (all, last))
    (hc : c = (Collected.ofFiles (all.map fun m => ⟨ModulePath.ofFile m.path, m⟩)).1) :
    (c.afterBodies last).Clean ∧ p = (c.afterBodies last).program := by
  rw [checkModules, hall] at h
  dsimp only at h
  rw [checkAll] at h
  dsimp only at h
  rw [← hc] at h
  split at h
  · cases h
  · simp only [bind, Except.bind] at h
    split at h
    · cases h
    rename_i s₁ h₁
    split at h
    · cases h
    rename_i s₂ h₂
    split at h
    · cases h
    rename_i s₃ h₃
    have hs₃ : s₃ = c.afterBodies last := by
      rw [(eq_of_phase h₃).1, (eq_of_phase h₂).1, (eq_of_phase h₁).1]
      rfl
    exact ⟨hs₃ ▸ (eq_of_phase h₃).2, hs₃ ▸ (Except.ok.inj h).symm⟩

theorem ok_of_bind {ε α β : Type} {x : Except ε α} {f : α → Except ε β} {b : β}
    (h : (x >>= f) = .ok b) : ∃ a, x = .ok a ∧ f a = .ok b := by
  cases x with
  | error e => cases h
  | ok a => exact ⟨a, rfl, h⟩

theorem ok_of_mapError {ε ε' α : Type} {r : Except ε α} {f : ε → ε'} {a : α}
    (h : r.mapError f = .ok a) : r = .ok a := by
  cases r with
  | error => cases h
  | ok => exact congrArg _ (Except.ok.inj h)

theorem readAll_of_read {n : Nat} (h : SourceFile.read files = .ok (modules, n)) :
    readAll files 0 = (modules, n, []) := by
  unfold SourceFile.read at h
  split at h
  · rename_i hall
    cases h
    exact hall
  · cases h

theorem checkModules_of_check (h : check files = .ok p) :
    ∃ modules n, readAll files 0 = (modules, n, []) ∧
      checkModules modules n = .ok p := by
  rw [check] at h
  obtain ⟨found, hread, hchecked⟩ := ok_of_bind h
  exact ⟨found.1, found.2, readAll_of_read hread, ok_of_mapError hchecked⟩

theorem makes_of_check (h : check files = .ok p) :
    Makes files p (SourceFile.gathered files).1 (SourceFile.modules files).2 := by
  obtain ⟨modules, n, hread, hchecked⟩ := checkModules_of_check h
  rcases hmodules : SourceFile.modules files with ⟨all, last⟩
  have hall := (modules_of_readAll hread).trans hmodules
  have hgathered : (SourceFile.gathered files).1 =
      (Collected.ofFiles (all.map fun m => ⟨ModulePath.ofFile m.path, m⟩)).1 := by
    rw [SourceFile.gathered, hmodules]
  obtain ⟨hclean, hprogram⟩ := ends_of_checkModules hchecked hall hgathered
  have hgathers := gathers_of_readAll hread
  rw [hmodules] at hgathers
  exact ⟨hgathers, hclean, hprogram⟩

theorem exists_makes_of_check (h : check files = .ok p) :
    ∃ c n, Makes files p c n := ⟨_, _, makes_of_check h⟩

end Typing
end Keel
