/-
# Checking all bodies

Bodies are checked one after the other, and each writes only at its own nodes.  While
this goes on, the functions with a signature are those that wait and those that have
been checked; a body that is checked may add to the ones that wait.  The instances of
the last generation can ask for no new ones, so in the end nothing waits.

What is true of a function after its own check, and depends on nothing but what is known
about its nodes and on signatures, is therefore true in the end: `Underway` carries such a
property along.
-/
import Keel.Proofs.Typing.Bodies

namespace Keel

open List

namespace Resolutions

def Knows (r : Resolutions) (id : Nat) : Prop :=
  id ∈ r.exprTypes ∨ id ∈ r.letTypes ∨ id ∈ r.calls ∨ id ∈ r.variants ∨ id ∈ r.intrinsics ∨
    id ∈ r.constRefs ∨ id ∈ r.structLiterals

theorem knows_congr {r r' : Resolutions} {id : Nat} (h : r'.entry id = r.entry id) : r'.Knows id ↔ r.Knows id := by
  simp only [entry, Std.TreeMap.get?_eq_getElem?, Prod.mk.injEq] at h
  obtain ⟨h₁, h₂, h₃, h₄, h₅, h₆, h₇⟩ := h
  simp only [Knows, Std.TreeMap.mem_iff_isSome_getElem?, h₁, h₂, h₃, h₄, h₅, h₆, h₇]

end Resolutions

def Block.Numbers (b : Block) (id : Nat) : Prop := ∃ node ∈ b.nodes, node.id = id

namespace Typing

variable {d : Declarations} {s s' : State} {depth : Nat} {name : QualName} {g : FunctionDecl}
  {sig : FunctionSig}

/-! ### One function -/

theorem checkFunction_run (depth : Nat) (name : QualName) (d : Declarations) (s : State) :
    checkFunction depth name d s = (match s.functions.get? name, s.signatures.functions.get? name with
      | some g, some sig => do
        checkBody g sig depth
        modify fun s => { s with checked := s.checked.insert name (g.checked name) }
      | _, _ => pure () : Check Unit) d s := by
  rfl

theorem checkFunction_eq (hg : s.functions.get? name = some g)
    (hsig : s.signatures.functions.get? name = some sig) :
    (checkFunction depth name d s).2 = { (checkBody g sig depth d s).2 with
      checked := (checkBody g sig depth d s).2.checked.insert name (g.checked name) } := by
  rw [checkFunction_run, hg, hsig]
  rfl

theorem steps_checkBody {F : QualName → FunctionDecl → Prop} {S : Nat → Prop}
    (h : Covers S g.decl.body.nodes) : Steps d F S depth (checkBody g sig depth) :=
  (steps_checkBlock g.decl.body h (g.frame sig depth) _ rfl).bind fun _ => steps_checkResult _ _ _ _ h

/-- **A body is checked at its own nodes.** -/
theorem effect_checkBody : Acts d depth g.decl.body.Numbers (checkBody g sig depth) :=
  acts_of_steps fun _ => steps_checkBody fun node hnode => ⟨node, hnode, rfl⟩

theorem checkFunction_eq_self (h : s.functions.get? name = none ∨ s.signatures.functions.get? name = none) :
    (checkFunction depth name d s).2 = s := by
  rw [checkFunction_run]
  rcases h with h | h
  · rw [h]
    rfl
  · rw [h]
    cases s.functions.get? name <;> rfl

/-- Whatever state the checker is in, checking a function leaves alone what is known about
the nodes of others. -/
theorem entry_checkFunction {id : Nat} (hid : ∀ g, s.functions.get? name = some g → ¬ g.decl.body.Numbers id) :
    (checkFunction depth name d s).2.resolutions.entry id = s.resolutions.entry id := by
  rcases hg : s.functions.get? name with _ | g
  · rw [checkFunction_eq_self (.inl hg)]
  rcases hsig : s.signatures.functions.get? name with _ | sig
  · rw [checkFunction_eq_self (.inr hsig)]
  rw [checkFunction_eq hg hsig]
  exact (effect_checkBody s).entry id (hid g hg)

/-! ### All functions -/

/-- The check keeps `I`, and it makes `Q` true of every body that it has nothing to report
about. -/
structure Establishes (d : Declarations) (I : State → Prop) (Q : State → CheckedFunction → Prop) :
    Prop where
  keeps : ∀ depth name, Keeps d I (checkFunction depth name)
  taken : ∀ s, I s → I { s with pending := [] }
  /-- `Q` depends on nothing but what is known about the nodes of the body, and on signatures. -/
  congr : ∀ s s' f, Signatures.Keeps s.signatures s'.signatures →
    (∀ name sig, s.signatures.functions.get? name = some sig →
      s'.signatures.functions.get? name = some sig) →
    (∀ id, f.decl.body.Numbers id → s'.resolutions.entry id = s.resolutions.entry id) → Q s f → Q s' f
  holds : ∀ depth name s g sig, s.functions.get? name = some g →
    s.signatures.functions.get? name = some sig → I s → s.Spread →
    (∀ id, g.decl.body.Numbers id → ¬ s.resolutions.Knows id) →
    (checkBody g sig depth d s).2.Clean → Q (checkBody g sig depth d s).2 (g.checked name)

/-- Checking in the middle of it: the functions `todo` come next, then those that are
pending.  `I` holds all along, and `Q` of what has been checked unless there was something to
report. -/
structure Underway (declares : QualName → FunctionDef → Prop) (I : State → Prop)
    (Q : State → CheckedFunction → Prop) (todo : List QualName) (s : State) : Prop where
  linked : s.Linked
  spread : s.Spread
  calls : s.CallsSigned
  origin : ∀ name g, s.functions.get? name = some g → declares name g.decl ∨
    ∃ base t, declares base t.decl ∧ g.IsInstance name base t
  checked : ∀ name f, s.checked.get? name = some f →
    ∃ g, s.functions.get? name = some g ∧ g.decl.typeParams = [] ∧ f = g.checked name
  known : ∀ id, s.resolutions.Knows id →
    ∃ name f, s.checked.get? name = some f ∧ f.decl.body.Numbers id
  nodup : (todo ++ s.pending).Nodup
  waiting : ∀ name, name ∈ todo ++ s.pending ↔ s.Signed name ∧ s.checked.get? name = none
  holds : I s
  facts : s.Clean → ∀ name f, s.checked.get? name = some f → Q s f

namespace Underway

variable {declares : QualName → FunctionDef → Prop} {I : State → Prop} {Q : State → CheckedFunction → Prop}
  {todo : List QualName}

theorem unknown (h : Underway declares I Q todo s) (hg : s.functions.get? name = some g)
    (hnone : s.checked.get? name = none) {id : Nat} (hid : g.decl.body.Numbers id) : ¬ s.resolutions.Knows id := by
  intro hknown
  obtain ⟨other, f, hf, node', hnode', rfl⟩ := h.known id hknown
  obtain ⟨g', hg', -, rfl⟩ := h.checked other f hf
  obtain ⟨node, hnode, heq⟩ := hid
  have hne : name ≠ other := by
    rintro rfl
    rw [hnone] at hf
    cases hf
  exact h.spread.apart name g other g' hg hg' hne node hnode node' hnode' heq

/-- **One function less to check.** -/
theorem checkFunction (h : Underway declares I Q (name :: todo) s) (he : Establishes d I Q) (depth : Nat) :
    Sat d s (checkFunction depth name) fun _ s' => Underway declares I Q todo s' ∧
      (maxDepth ≤ depth → s'.pending = s.pending) := by
  obtain ⟨hsigned, hnone⟩ := (h.waiting name).1 (by simp)
  obtain ⟨g, hg, hplain⟩ := h.linked.declared name hsigned
  obtain ⟨sig, hsig⟩ := Option.isSome_iff_exists.1 hsigned
  have hunknown := fun id (hid : g.decl.body.Numbers id) => h.unknown hg hnone hid
  have hI := (he.keeps depth name s h.holds).1
  have heff : Effect depth g.decl.body.Numbers s (checkBody g sig depth d s).2 :=
    effect_checkBody s
  have hQ := he.holds depth name s g sig hg hsig h.holds h.spread hunknown
  rw [Sat, checkFunction_eq hg hsig]
  rw [checkFunction_eq hg hsig] at hI
  generalize (checkBody g sig depth d s).2 = s₁ at heff hQ hI ⊢
  obtain ⟨new, hpending, hnew, hmem, hdeep⟩ := heff.pending
  -- What has been checked before is still a function with the same body.
  have hold : ∀ other f, s.checked.get? other = some f → name ≠ other ∧
      ∃ g', s₁.functions.get? other = some g' ∧ s.functions.get? other = some g' ∧
        g'.decl.typeParams = [] ∧ f = g'.checked other := by
    intro other f hf
    obtain ⟨g', hg', hplain', rfl⟩ := h.checked other f hf
    refine ⟨fun heq => ?_, g', ?_, hg', hplain', rfl⟩
    · rw [← heq, hnone] at hf
      cases hf
    · rw [(heff.kept other (h.linked.signed other g' hg' hplain')).2, hg']
  refine ⟨{ linked := ⟨(heff.linked h.linked).declared, (heff.linked h.linked).signed⟩
            spread := ⟨(heff.spread h.spread).numbered, (heff.spread h.spread).apart⟩
            calls := heff.calls h.calls
            holds := hI
            origin := ?_, checked := ?_, known := ?_, nodup := ?_, waiting := ?_, facts := ?_ },
    fun hd => by rw [hpending, hdeep hd]; rfl⟩
  · intro other g' hg'
    rcases heff.made other g' hg' with hbefore | ⟨base, t, ht, hinst⟩
    · exact h.origin other g' hbefore
    · rcases h.origin base t ht with hdef | ⟨_, _, _, hinst'⟩
      · exact .inr ⟨base, t, hdef, hinst⟩
      · exact absurd hinst'.typeParams hinst.generic
  · intro other f hf
    rw [get?_insert, heff.checked] at hf
    split at hf
    · rename_i heq
      cases heq
      exact ⟨g, by rw [(heff.kept name hsigned).2, hg], hplain, (Option.some.inj hf).symm⟩
    · obtain ⟨-, g', hg', -, hplain', rfl⟩ := hold other f hf
      exact ⟨g', hg', hplain', rfl⟩
  · intro id hid
    simp only [get?_insert, heff.checked]
    by_cases hmine : g.decl.body.Numbers id
    · exact ⟨name, g.checked name, by simp, hmine⟩
    · obtain ⟨other, f, hf, hnumbers⟩ := h.known id ((Resolutions.knows_congr (heff.entry id hmine)).1 hid)
      exact ⟨other, f, by rw [if_neg (hold other f hf).1, hf], hnumbers⟩
  · show (todo ++ s₁.pending).Nodup
    rw [hpending, (perm_append_comm_assoc todo new s.pending).nodup_iff]
    refine hnew.append (nodup_cons.1 h.nodup).2 fun other hother hwaits => ?_
    exact ((hmem other).1 hother).2 ((h.waiting other).1 (mem_cons_of_mem name hwaits)).1
  · intro other
    rw [show State.pending _ = new ++ s.pending from hpending, get?_insert, heff.checked,
      (perm_append_comm_assoc todo new s.pending).mem_iff, mem_append, hmem]
    have hwaits : name = other ∨ other ∈ todo ++ s.pending ↔ s.Signed other ∧ s.checked.get? other = none := by
      rw [← h.waiting other, cons_append, mem_cons, eq_comm]
    constructor
    · rintro (⟨hs₁, hs⟩ | hother)
      · have hne : name ≠ other := fun heq => hs (heq ▸ hsigned)
        refine ⟨hs₁, (if_neg hne).trans (Option.eq_none_iff_forall_ne_some.2 fun f hf => ?_)⟩
        obtain ⟨g', hg', hplain', -⟩ := h.checked other f hf
        exact hs (h.linked.signed other g' hg' hplain')
      · have hne : name ≠ other := fun heq => (nodup_cons.1 h.nodup).1 (heq ▸ hother)
        exact ⟨heff.signed (hwaits.1 (.inr hother)).1, (if_neg hne).trans (hwaits.1 (.inr hother)).2⟩
    · rintro ⟨hs₁, hnew⟩
      have hne : name ≠ other := fun heq => by simp [heq] at hnew
      rw [if_neg hne] at hnew
      by_cases hs : s.Signed other
      · exact .inr ((hwaits.2 ⟨hs, hnew⟩).resolve_left hne)
      · exact .inl ⟨hs₁, hs⟩
  · intro hclean other f hf
    rw [get?_insert, heff.checked] at hf
    split at hf
    · cases hf
      rename_i heq
      cases heq
      exact he.congr s₁ _ _ (.refl _) (fun _ _ h => h) (fun _ _ => rfl) (hQ hclean)
    · obtain ⟨hne, g', -, hg', -, rfl⟩ := hold other f hf
      refine he.congr _ _ _ heff.types heff.signature (fun id hid => heff.entry id fun hmine => ?_)
        (h.facts (heff.clean hclean) other _ hf)
      obtain ⟨node, hnode, rfl⟩ := hmine
      obtain ⟨node', hnode', heq⟩ := hid
      exact h.spread.apart name g other g' hg hg' hne node hnode node' hnode' heq.symm

theorem forM_checkFunction (h : Underway declares I Q todo s) (he : Establishes d I Q) (depth : Nat) :
    Sat d s (todo.forM (Typing.checkFunction depth)) fun _ s' => Underway declares I Q [] s' ∧
      (maxDepth ≤ depth → s'.pending = s.pending) := by
  refine sat_forM (fun rest s' => Underway declares I Q rest s' ∧ (maxDepth ≤ depth → s'.pending = s.pending))
    ⟨h, fun _ => rfl⟩ ?_
  rintro name rest s₁ ⟨h₁, hpending⟩
  exact (h₁.checkFunction he depth).imp fun _ s₂ h₂ => ⟨h₂.1, fun hd => (h₂.2 hd).trans (hpending hd)⟩

theorem takePending (h : Underway declares I Q [] s) (he : Establishes d I Q) :
    Underway declares I Q s.pending.reverse { s with pending := [] } :=
  { h with
    linked := ⟨h.linked.declared, h.linked.signed⟩
    spread := ⟨h.spread.numbered, h.spread.apart⟩
    calls := h.calls
    facts := fun hclean name f hf =>
      he.congr s _ _ (.refl _) (fun _ _ h => h) (fun _ _ => rfl) (h.facts hclean name f hf)
    holds := he.taken s h.holds
    nodup := by simpa using h.nodup
    waiting := fun name => by simpa [State.Signed] using h.waiting name }

theorem checkGenerations (h : Underway declares I Q [] s) (he : Establishes d I Q) {n : Nat} (hn : n < maxDepth) :
    Sat d s (checkGenerations (n + 1)) fun _ s' => Underway declares I Q [] s' ∧ s'.pending = [] := by
  induction n generalizing s with
  | zero =>
    refine Sat.bind (R := fun names s' => names = s.pending.reverse ∧ { s with pending := [] } = s') ⟨rfl, rfl⟩ ?_
    rintro _ _ ⟨rfl, rfl⟩
    refine ((h.takePending he).forM_checkFunction he _).bind fun _ s₁ h₁ => ?_
    exact ⟨h₁.1, h₁.2 (Nat.le_refl _)⟩
  | succ n ih =>
    refine Sat.bind (R := fun names s' => names = s.pending.reverse ∧ { s with pending := [] } = s') ⟨rfl, rfl⟩ ?_
    rintro _ _ ⟨rfl, rfl⟩
    exact ((h.takePending he).forM_checkFunction he _).bind fun _ s₁ h₁ => ih h₁.1 (by omega)

theorem start (h : Founded declares [] s) (hI : I s) : Underway declares I Q (plainNames s.functions.toList) s where
  linked := h.linked
  spread := h.room.spread
  calls := by simp [State.CallsSigned, h.resolutions]
  origin name g hg := .inl (h.declared name g hg)
  checked := by simp [h.checked]
  known := by simp [h.resolutions, Resolutions.Knows]
  nodup := by
    rw [h.pending, append_nil]
    exact nodup_plainNames _
  waiting name := by
    rw [h.pending, append_nil, mem_plainNames, h.checked]
    refine ⟨fun ⟨g, hg, hplain⟩ => ⟨h.linked.signed name g hg hplain, by simp⟩, fun hsigned => ?_⟩
    exact h.linked.declared name hsigned.1
  holds := hI
  facts := by simp [h.checked]

/-- **All bodies are checked.** -/
theorem checkBodies (h : Founded declares [] s) (hI : I s) (he : Establishes d I Q) :
    Sat d s checkBodies fun _ s' => Underway declares I Q [] s' ∧ s'.pending = [] := by
  refine Sat.bind (R := fun r s' => r = s ∧ s = s') ⟨rfl, rfl⟩ ?_
  rintro _ _ ⟨rfl, rfl⟩
  refine (sat_forIn (fun rest s' => Underway declares I Q (plainNames rest) s') (start h hI) ?_).bind
    fun _ s₁ h₁ => checkGenerations h₁ he (by decide)
  rintro ⟨name, f⟩ rest s₁ h₁
  dsimp only
  split
  · rename_i hplain
    have hnames : plainNames ((name, f) :: rest) = name :: plainNames rest := by
      simp [plainNames, hplain]
    rw [hnames] at h₁
    exact (h₁.checkFunction he 0).bind fun _ _ h₂ => ⟨rfl, h₂.1⟩
  · rename_i hplain
    have hnames : plainNames ((name, f) :: rest) = plainNames rest := by
      simp [plainNames, hplain]
    rw [hnames] at h₁
    exact ⟨rfl, h₁⟩

end Underway

/-- **The last state of an accepted program.**  What the check establishes is true in it. -/
theorem Makes.underway {files : List SourceFile} {p : CheckedProgram} {c : Collected} {n : Nat}
    (h : Makes files p c n) {I : State → Prop} {Q : State → CheckedFunction → Prop}
    (hI : I (c.afterConsts n)) (he : Establishes c.decls I Q) :
    Underway (ModuleFile.Declares (SourceFile.moduleFiles files)) I Q [] (c.afterBodies n) ∧
      (c.afterBodies n).pending = [] := by
  have hfounded := founded_afterConsts h.homed h.room
  rw [Collected.afterBodies]
  exact Underway.checkBodies hfounded hI he

end Typing
end Keel
