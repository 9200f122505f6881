/-
# Lowered functions set temporaries once, and before they are used

Every rule of lowering keeps the blocks `Ordered`, and leaves control where all that was
set before is set: a new block asks for what is set where it is made, so the sets can be
kept for branches, for loops, and for the code after a jump, which nothing leads to.
Hence `lowerBody` keeps the blocks in order, and the finished function names only what it
has, sets no temporary twice, and sets each before it is used:
`lowerProgram_singleAssignment`.
-/
import Keel.Proofs.Ir.Paths
import Keel.Proofs.Lowering.Finish
import Keel.Proofs.Lowering.Ordered

namespace Keel.Lowering

open List

open Ir (Storage Operand Instr Terminator BlockId TempId SlotId)

/-- The computation keeps the blocks in order, started where the scope fits, and its
result is as said. -/
def Keeps {α : Type} (n : Nat) (s : Scope) (m : Lower α) (Q : α → Builder → Entry → Prop) : Prop :=
  ∀ ⦃ctx b S a b'⦄, Ordered n b S → s.Fits b S (b.SetHere S) → Yields m ctx b a b' →
    ∃ S', Advance n b S b' S' ∧ Q a b' S'

abbrev Readable (n : Nat) (v : Operand) (b : Builder) (S : Entry) : Prop := v.Known n (b.SetHere S)

abbrev Fitting (s : Scope) (b : Builder) (S : Entry) : Prop := s.Fits b S (b.SetHere S)

abbrev HasSlot (result : Option SlotId) (b : Builder) (_ : Entry) : Prop :=
  ∀ slot ∈ result, slot.index < b.slots.size

variable {n : Nat} {s : Scope} {ctx : Context} {b b' : Builder} {S S' : Entry} {v : Operand}
  {K : TempId → Prop}

/-! ### Constants -/

theorem Context.LiteralIs.known {id : NodeId} {lit : Literal} (h : ctx.LiteralIs id lit v) : v.Known n K := by
  cases lit with
  | bool value | str value => cases h; trivial
  | int value => obtain ⟨kind, -, rfl⟩ := h; trivial

theorem Context.ConstIs.known {name : QualName} (h : ctx.ConstIs name v) : v.Known n K := by
  obtain ⟨_, _, -, -, ⟨_, _, -, -, rfl⟩ | ⟨_, -, rfl⟩ | ⟨_, -, rfl⟩⟩ := h <;> trivial

variable {ty : Storage} {result : Option SlotId} {join : BlockId} {scrutinee discriminant : Operand}
  {chosen : List (BlockId × ArmPart)} {u : Unit} {span : Span}

theorem Context.known_of_test? {p : Pattern} (h : ctx.test? p ty = some (some v)) : v.Known n K := by
  unfold Context.test? at h
  split at h
  · cases h; trivial
  · split at h <;> cases h <;> trivial

/-! ### Results of branches -/

theorem HasSlot.later (h : HasSlot result b S) (hl : Later b S b' S') :
    HasSlot result b' S' := fun slot hslot => Nat.lt_of_lt_of_le (h slot hslot) hl.slots

variable (id : NodeId)

theorem keeps_resultSlot : Keeps n s (resultSlot id) HasSlot := by
  intro ctx b S result b' ho _ hm
  obtain ⟨ty, -, ⟨-, rfl, rfl⟩ | ⟨-, rfl, rfl⟩⟩ := yields_resultSlot.1 hm
  · exact ⟨S, .refl ho, by simp [HasSlot]⟩
  · exact ⟨S, (Advance.refl ho).addSlot ty, by simp [HasSlot]⟩

theorem Reaches.endBranch (h : Reaches n b S K b' S') (hresult : HasSlot result b' S')
    (hv : v.Known n (b'.SetHere S')) (hjoin : MayEnter b' S' (b'.SetHere S') join) :
    Reaches n b S K (b'.endBranch result v join) S' := by
  cases result with
  | none => exact h.jump hjoin
  | some slot =>
    have hstore := (Advance.refl h.ordered).emit (i := .store slot v)
      (by simpa [Instr.operands] using hv) (by simpa [Instr.slots, HasSlot] using hresult) rfl
    exact h.trans (hstore.jump (hstore.mayEnter hjoin))

theorem Reaches.resume (ho : Ordered n b' S') (hl : Later b S b' S') (hresult : HasSlot result b' S')
    (hjoin : Enters b' S' join K) : Reaches n b S K (b'.resume result join) S' ∧
      Readable n (b'.resultOf result) (b'.resume result join) S' := by
  have hswitch := Reaches.enter ho hl hjoin fun _ ht => ht
  cases result with
  | none => exact ⟨hswitch, trivial⟩
  | some slot => exact hswitch.load (hresult slot rfl)

/-! ### Simple expressions -/

theorem keeps_lowerLiteral (lit : Literal) : Keeps n s (lowerLiteral id lit) (Readable n) := by
  intro ctx b S v b' ho _ hm
  obtain ⟨hlit, rfl⟩ := yields_lowerLiteral.1 hm
  exact ⟨S, .refl ho, hlit.known⟩

theorem keeps_lowerPath (path : PathExpr) : Keeps n s (lowerPath id path s) (Readable n) := by
  intro ctx b S v b' ho hs hm
  rcases yields_lowerPath.1 hm with ⟨slot, hslot, rfl, rfl⟩ | ⟨-, name, -, hconst, rfl⟩
  · obtain ⟨name, -, hname⟩ := Option.bind_eq_some_iff.1 hslot
    exact ⟨S, (Advance.refl ho).load (hs.find? hname)⟩
  · exact ⟨S, .refl ho, hconst.known⟩

theorem keeps_lowerUnary (op : UnaryOp) {operand : Lower Operand}
    (hoperand : Keeps n s operand (Readable n)) : Keeps n s (operand >>= lowerUnary id op) (Readable n) := by
  intro ctx b S v b' ho hs hm
  obtain ⟨o, b₁, ho₁, hm⟩ := yields_bind.1 hm
  obtain ⟨S₁, h₁, hv₁⟩ := hoperand ho hs ho₁
  rcases yields_lowerUnary.1 hm with ⟨value, kind, rfl, rfl, rfl, rfl⟩ | ⟨-, ty, -, rfl, rfl⟩
  · exact ⟨S₁, h₁, trivial⟩
  · exact ⟨S₁, h₁.define ty (by simpa [Instr.operands] using hv₁) (by simp [Instr.slots]) rfl⟩

theorem keeps_lowerEager (op : Ir.EagerOp) {left right : Part}
    (hleft : Keeps n s left.lower (Readable n)) (hright : Keeps n s right.lower (Readable n)) :
    Keeps n s (lowerEager id op left right) (Readable n) := by
  intro ctx b S v b' ho hs hm
  obtain ⟨operands, l, b₁, r, b₂, ty, -, hl, hr, -, rfl, rfl⟩ := yields_lowerEager.1 hm
  obtain ⟨S₁, h₁, hv₁⟩ := hleft ho hs hl
  obtain ⟨S₂, h₂, hv₂⟩ := hright h₁.ordered (h₁.fits hs) hr
  exact ⟨S₂, (h₁.trans h₂).define ty (by simpa [Instr.operands] using ⟨h₂.known hv₁, hv₂⟩)
    (by simp [Instr.slots]) rfl⟩

theorem Advance.shortcut (ho : Ordered n b S) (op : LogicOp) (hv : v.Known n (b.SetHere S))
    {result : SlotId} (hresult : HasSlot (some result) b S) : ∃ S', Advance n b S (b.shortcut op v result) S' ∧
      Enters (b.shortcut op v result) S' ⟨b.blocks.size + 2⟩ (b.SetHere S) := by
  obtain ⟨S', hnew, hright, hshort, hjoin⟩ := Advance.addBlocks₃ ho
  -- from here on, control is in one of the new blocks, where `b.SetHere S` is set
  have h₀ := hnew.start
  have h₁ : Reaches n b.addBlock.addBlock.addBlock S' (b.SetHere S)
      (b.addBlock.addBlock.addBlock.terminate (branchOnLeft op v ⟨b.blocks.size⟩ ⟨b.blocks.size + 1⟩)) S' := by
    have hr := h₀.mayEnter_of_enters hright
    have hs := h₀.mayEnter_of_enters hshort
    cases op with
    | and => exact h₀.branch (h₀.known hv) hr hs
    | or => exact h₀.branch (h₀.known hv) hs hr
  have h₂ := h₁.switchTo (hshort.later h₁.later)
  have h₃ := h₂.endBranch (hresult.later (hnew.append h₂).later) (v := .bool (op == .or)) trivial
    (h₂.mayEnter_of_enters hjoin)
  have h₄ := h₃.switchTo (hright.later h₃.later)
  exact ⟨S', hnew.append h₄, hjoin.later h₄.later⟩

theorem keeps_lowerLogic (op : LogicOp) {left right : Lower Operand}
    (hleft : Keeps n s left (Readable n)) (hright : Keeps n s right (Readable n)) :
    Keeps n s (lowerLogic op left right) (Readable n) := by
  intro ctx b S v b' ho hs hm
  obtain ⟨l, b₁, r, b₂, hl, hr, rfl, rfl⟩ := yields_lowerLogic.1 hm
  have h₀ := (Advance.refl ho).addSlot .bool
  obtain ⟨S₁, h₁, hv₁⟩ := hleft h₀.ordered (h₀.fits hs) hl
  have hslot : HasSlot (some ⟨b.slots.size⟩) b₁ S₁ := by
    have := h₁.later.slots
    simp [HasSlot] at this ⊢
    omega
  obtain ⟨S₂, h₂, hjoin⟩ := Advance.shortcut h₁.ordered op hv₁ hslot
  obtain ⟨S₃, h₃, hv₃⟩ := hright h₂.ordered (h₂.fits (h₁.fits (h₀.fits hs))) hr
  have h₄ := h₂.start.trans h₃
  have h₅ := h₄.endBranch (hslot.later (h₂.append h₄).later) hv₃ (h₄.mayEnter_of_enters hjoin)
  obtain ⟨h₆, hv₆⟩ := Reaches.resume h₅.ordered h₅.later (hslot.later (h₂.append h₅).later) (hjoin.later h₅.later)
  exact ⟨S₃, (h₀.trans h₁).trans (h₂.append h₆), hv₆⟩

theorem keeps_lowerCast {operand : Part} (hoperand : Keeps n s operand.lower (Readable n)) :
    Keeps n s (lowerCast id operand) (Readable n) := by
  intro ctx b S v b' ho hs hm
  obtain ⟨target, source, value, b₁, kind, -, -, hvalue, -, rfl, rfl⟩ := yields_lowerCast.1 hm
  obtain ⟨S₁, h₁, hv₁⟩ := hoperand ho hs hvalue
  have h₂ : Advance n b₁ S₁ (b₁.checkRange target value source) S₁ := by
    unfold Builder.checkRange
    split
    · exact (Advance.refl h₁.ordered).emit (by simpa [Instr.operands] using hv₁)
        (by simp [Instr.slots]) rfl
    · exact .refl h₁.ordered
  have hv₂ := h₂.known hv₁
  unfold Builder.converted Builder.convert
  split
  · exact ⟨S₁, h₁.trans h₂, hv₂⟩
  · exact ⟨S₁, (h₁.trans h₂).define _ (by simpa [Instr.operands] using hv₂)
      (by simp [Instr.slots]) rfl⟩

theorem Reaches.variant (h : Reaches n b S K b' S') (ref : VariantRef) {payload : Option Operand}
    (hp : ∀ v ∈ payload, Readable n v b' S') : Reaches n b S K (b'.define (.enum ref.enum.text) fun dest =>
        .makeVariant dest ref.enum.text ref.index payload) S' ∧
      Readable n (.temp ⟨b'.temps.size⟩) (b'.define (.enum ref.enum.text) fun dest =>
        .makeVariant dest ref.enum.text ref.index payload) S' :=
  h.define _ (by simpa [Instr.operands] using hp) (by simp [Instr.slots]) rfl

theorem keeps_lowerMember (name : String) {base : Part} (hbase : Keeps n s base.lower (Readable n)) :
    Keeps n s (lowerMember id base name) (Readable n) := by
  intro ctx b S v b' ho hs hm
  rcases yields_lowerMember.1 hm with
    ⟨ref, -, href⟩ | ⟨-, struct, value, b₁, field, ty, -, hvalue, -, rfl, rfl⟩
  · obtain ⟨rfl, rfl⟩ := yields_lowerVariant.1 href
    exact ⟨S, (Advance.refl ho).variant ref (by simp)⟩
  · obtain ⟨S₁, h₁, hv₁⟩ := hbase ho hs hvalue
    exact ⟨S₁, h₁.define ty (by simpa [Instr.operands] using hv₁) (by simp [Instr.slots]) rfl⟩

theorem mem_of_arranged? {α : Type} {fields : List (String × Storage)}
    {values : List (String × α)} {ordered : List α} (h : arranged? values fields = some ordered) :
    ∀ a ∈ ordered, ∃ field, (field, a) ∈ values := by
  induction fields generalizing values ordered with
  | nil =>
    cases h
    simp
  | cons f rest ih =>
    obtain ⟨field, ty⟩ := f
    rw [arranged?] at h
    split at h
    · rename_i value hvalue
      obtain ⟨tail, htail, rfl⟩ := Option.map_eq_some_iff.1 h
      intro a ha
      rcases mem_cons.1 ha with rfl | ha
      · obtain ⟨l₁, l₂, rfl, -⟩ := lookup_eq_some_iff.1 hvalue
        exact ⟨field, by simp⟩
      · obtain ⟨other, hother⟩ := ih htail a ha
        exact ⟨other, (mem_filter.1 hother).1⟩
    · cases h

abbrev FieldsReadable (n : Nat) (values : List (String × Operand)) (b : Builder) (S : Entry) :
    Prop :=
  ∀ p ∈ values, Readable n p.2 b S

theorem keeps_lowerRecord {fields : Lower (List (String × Operand))}
    (hfields : Keeps n s fields (FieldsReadable n)) : Keeps n s (lowerRecord id fields) (Readable n) := by
  intro ctx b S v b' ho hs hm
  obtain ⟨name, values, b₁, layout, ordered, -, hvalues, -, hordered, rfl, rfl⟩ :=
    yields_lowerRecord.1 hm
  obtain ⟨S₁, h₁, hv₁⟩ := hfields ho hs hvalues
  refine ⟨S₁, h₁.define _ ?_ (by simp [Instr.slots]) rfl⟩
  intro o ho
  obtain ⟨field, hfield⟩ := mem_of_arranged? hordered o ho
  exact hv₁ (field, o) (mem_reverse.1 hfield)

/-! ### Calls -/

abbrev AllReadable (n : Nat) (vs : List Operand) (b : Builder) (S : Entry) : Prop :=
  ∀ v ∈ vs, Readable n v b S

theorem keeps_lowerParts {parts : List Part} (hparts : ∀ p ∈ parts, Keeps n s p.lower (Readable n)) :
    Keeps n s (lowerParts parts) (AllReadable n) := by
  induction parts with
  | nil =>
    intro ctx b S vs b' ho _ hm
    obtain ⟨rfl, rfl⟩ := yields_lowerParts_nil.1 hm
    exact ⟨S, .refl ho, forall_mem_nil _⟩
  | cons p parts ih =>
    intro ctx b S vs b' ho hs hm
    obtain ⟨v, b₁, rest, hv, hrest, rfl⟩ := yields_lowerParts_cons.1 hm
    obtain ⟨S₁, h₁, hv₁⟩ := hparts p (by simp) ho hs hv
    obtain ⟨S₂, h₂, hv₂⟩ := ih (fun p hp => hparts p (by simp [hp])) h₁.ordered (h₁.fits hs) hrest
    refine ⟨S₂, h₁.trans h₂, ?_⟩
    intro w hw
    rcases mem_cons.1 hw with rfl | hw
    · exact h₂.known hv₁
    · exact hv₂ w hw

theorem keeps_lowerBuiltin (builtin : Builtin) {args : List Part}
    (hargs : ∀ p ∈ args, Keeps n s p.lower (Readable n)) :
    Keeps n s (lowerBuiltin id builtin args) (Readable n) := by
  intro ctx b S v b' ho hs hm
  rcases yields_lowerBuiltin.1 hm with ⟨which, -, hservice⟩ | ⟨-, element, -, rfl, rfl⟩
  · obtain ⟨arg, ty, value, b₁, harg, -, hvalue, rfl, rfl⟩ := yields_lowerService.1 hservice
    obtain ⟨S₁, h₁, hv₁⟩ := hargs arg (mem_of_head? harg) ho hs hvalue
    exact ⟨S₁, h₁.emit (by simpa [Instr.operands] using hv₁) (by simp [Instr.slots]) rfl, trivial⟩
  · exact ⟨S, (Advance.refl ho).define _ (by simp [Instr.operands]) (by simp [Instr.slots]) rfl⟩

theorem keeps_lowerCall (callee : Expr) {args : List Part}
    (hargs : ∀ p ∈ args, Keeps n s p.lower (Readable n)) : Keeps n s (lowerCall id s callee args) (Readable n) := by
  intro ctx b S v b' ho hs hm
  obtain ⟨target, -, hm⟩ := yields_lowerCall.1 hm
  cases target with
  | intrinsic op =>
    obtain ⟨receiver, values, b₁, ty, hreceiver, hvalues, -, rfl, rfl⟩ :=
      yields_lowerIntrinsic.1 hm
    obtain ⟨S₁, h₁, hv₁⟩ := keeps_lowerParts hargs ho hs hvalues
    obtain ⟨name, -, hname⟩ := Option.bind_eq_some_iff.1 hreceiver
    exact ⟨S₁, h₁.define ty (by simpa [Instr.operands] using hv₁)
      (by simpa [Instr.slots] using (h₁.fits hs).find? hname) rfl⟩
  | variant ref =>
    obtain ⟨payload, b₁, hpayload, hm⟩ := yields_bind.1 hm
    obtain ⟨rfl, rfl⟩ := yields_lowerVariant.1 hm
    rcases yields_payload.1 hpayload with ⟨-, rfl, rfl⟩ | ⟨arg, rest, value, rfl, rfl, hvalue⟩
    · exact ⟨S, (Advance.refl ho).variant ref (by simp)⟩
    · obtain ⟨S₁, h₁, hv₁⟩ := hargs arg (by simp) ho hs hvalue
      exact ⟨S₁, h₁.variant ref (by simpa using hv₁)⟩
  | builtin which => exact keeps_lowerBuiltin id which hargs ho hs hm
  | function name =>
    obtain ⟨values, b₁, ty, hvalues, -, rfl, rfl⟩ := yields_lowerFunctionCall.1 hm
    obtain ⟨S₁, h₁, hv₁⟩ := keeps_lowerParts hargs ho hs hvalues
    exact ⟨S₁, h₁.define ty (by simpa [Instr.operands] using hv₁) (by simp [Instr.slots]) rfl⟩

/-! ### Matches -/

theorem Reaches.declare (h : Reaches n b S K b' S') {s : Scope} (hs : Fitting s b' S')
    (name : String) (ty : Storage) (hv : Readable n v b' S') :
    Reaches n b S K ((b'.addSlot ty).emit (.store ⟨b'.slots.size⟩ v)) S' ∧
      Fitting (s.declare name ⟨b'.slots.size⟩) ((b'.addSlot ty).emit (.store ⟨b'.slots.size⟩ v)) S' := by
  have hslot := (Advance.refl h.ordered).addSlot ty
  have hstore := hslot.emit (i := .store ⟨b'.slots.size⟩ v)
    (by simpa [Instr.operands] using hslot.known hv) (by simp [Instr.slots]) rfl
  exact ⟨h.trans hstore, (hstore.fits hs).declare name (by simp)⟩

theorem keeps_bindPayload {ref : VariantRef} {variant : String} {fields : List (Pattern × Nat)} {inner : Scope}
    (ho : Ordered n b S) (hs : Fitting s b S) (hv : Readable n scrutinee b S)
    (hm : Yields (bindPayload scrutinee ref variant fields s) ctx b inner b') :
    ∃ S', Advance n b S b' S' ∧ Fitting inner b' S' := by
  induction fields generalizing b s with
  | nil =>
    obtain ⟨rfl, rfl⟩ := yields_pure.1 hm
    exact ⟨S, .refl ho, hs⟩
  | cons f rest ih =>
    obtain ⟨p, field⟩ := f
    by_cases hp : ∃ name, p.kind = .bind name
    · obtain ⟨name, hp⟩ := hp
      obtain ⟨ty, -, hm⟩ := (yields_bindPayload_bind hp).1 hm
      obtain ⟨h₁, hv₁⟩ := (Advance.refl ho).define ty
        (f := fun dest => .payload dest scrutinee ref.enum.text variant ref.index field)
        (by simpa [Instr.operands] using hv) (by simp [Instr.slots]) rfl
      obtain ⟨h₂, hs₂⟩ := (Advance.refl h₁.ordered).declare (h₁.fits hs) name ty hv₁
      obtain ⟨S₃, h₃, hs₃⟩ := ih h₂.ordered hs₂ ((h₁.trans h₂).known hv) hm
      exact ⟨S₃, (h₁.trans h₂).trans h₃, hs₃⟩
    · exact ih ho hs hv ((yields_bindPayload_other (fun name h => hp ⟨name, h⟩)).1 hm)

theorem keeps_bindPattern {p : Pattern} {inner : Scope} (ho : Ordered n b S) (hs : Fitting s b S)
    (hv : Readable n scrutinee b S) (hm : Yields (bindPattern scrutinee ty p s) ctx b inner b') :
    ∃ S', Advance n b S b' S' ∧ Fitting inner b' S' := by
  have hm := yields_bindPattern.1 hm
  split at hm
  · obtain ⟨rfl, rfl⟩ := hm
    exact ⟨S, (Advance.refl ho).declare hs _ ty hv⟩
  · exact keeps_bindPayload ho hs hv hm
  · obtain ⟨rfl, rfl⟩ := hm
    exact ⟨S, .refl ho, hs⟩

/-- A test goes on in a new block, which may read what was set before. -/
theorem Reaches.test (h : Reaches n b S K b' S') {expected : Operand} (compared : Storage) {block : BlockId}
    (hd : discriminant.Known n K) (he : expected.Known n K) (hblock : Enters b' S' block K) :
    ∃ S'', Reaches n b' S' K (b'.test discriminant expected compared block) S'' := by
  obtain ⟨h₁, hv₁⟩ := h.start.define .bool
    (f := fun dest => .binary dest (.compare .eq) discriminant expected compared)
    (by simpa [Instr.operands] using ⟨h.known hd, h.known he⟩) (by simp [Instr.slots]) rfl
  obtain ⟨h₂, hnext⟩ := (Advance.refl h₁.ordered).addBlock (L := K)
    fun t ht => h₁.ordered.setHere_lt t (h₁.here t ht)
  have h₃ := h₁.trans h₂
  have h₄ := h₃.branch (h₂.known hv₁) (h₃.mayEnter_of_enters hblock) (hnext.mayEnter h₃.here)
  have h₅ := h₄.switchTo (hnext.later (Later.terminate h₃.ordered _))
  rw [Builder.size_define] at h₅
  exact ⟨_, h₅⟩

/-- The blocks of the arms may read what was set before the tests. -/
theorem keeps_lowerTests {compared : Storage} {arms : List ArmPart} (h : Reaches n b S K b S)
    (hv : discriminant.Known n K) (hjoin : MayEnter b S K join)
    (hm : Yields (lowerTests discriminant compared ty join arms) ctx b chosen b') :
    ∃ S', Reaches n b S K b' S' ∧ ∀ p ∈ chosen, p.2 ∈ arms ∧ Enters b' S' p.1 K := by
  induction arms generalizing b S chosen with
  | nil =>
    obtain ⟨rfl, rfl⟩ := yields_lowerTests_nil.1 hm
    exact ⟨S, h.jump (h.mayEnter hjoin), by simp⟩
  | cons arm rest ih =>
    obtain ⟨test, htest, hm⟩ := yields_lowerTests_cons.1 hm
    obtain ⟨h₁, hblock⟩ := h.addBlock (L := K) fun t ht => h.ordered.setHere_lt t (h.here t ht)
    cases test with
    | none =>
      obtain ⟨rfl, rfl⟩ := hm
      have h₂ := h₁.start.jump (hblock.mayEnter h₁.here)
      exact ⟨_, h₁.append h₂, by simpa using hblock.later h₂.later⟩
    | some expected =>
      obtain ⟨more, hmore, rfl⟩ := hm
      obtain ⟨S₂, h₂⟩ := h₁.test compared hv (Context.known_of_test? htest) hblock
      obtain ⟨S₃, h₃, hchosen⟩ := ih h₂.start (hjoin.later (h₁.append h₂).later fun _ ht => ht) hmore
      refine ⟨S₃, (h₁.append h₂).append h₃, ?_⟩
      intro p hp
      rcases mem_cons.1 hp with rfl | hp
      · exact ⟨by simp, hblock.later (h₂.append h₃).later⟩
      · exact ⟨mem_cons_of_mem _ (hchosen p hp).1, (hchosen p hp).2⟩

theorem keeps_lowerArms (hbodies : ∀ p ∈ chosen, ∀ inner, Keeps n inner (p.2.body inner) (Readable n))
    (ho : Ordered n b S) (hblocks : ∀ p ∈ chosen, Enters b S p.1 K) (hs : s.Fits b S K) (hv : scrutinee.Known n K)
    (hresult : HasSlot result b S) (hjoin : MayEnter b S K join)
    (hm : Yields (lowerArms scrutinee ty result join s chosen) ctx b u b') :
    ∃ S', Ordered n b' S' ∧ Later b S b' S' := by
  induction chosen generalizing b S with
  | nil =>
    cases yields_lowerArms_nil.1 hm
    exact ⟨S, ho, Later.refl _ S⟩
  | cons p rest ih =>
    obtain ⟨block, arm⟩ := p
    obtain ⟨inner, b₁, value, b₂, hbind, hbody, hrest⟩ := yields_lowerArms_cons.1 hm
    have hblock := hblocks _ (mem_cons_self ..)
    have h₀ := Reaches.enter ho (Later.refl b S) hblock fun _ ht => ht
    obtain ⟨S₁, h₁, hinner⟩ := keeps_bindPattern h₀.ordered (h₀.fits hs) (h₀.known hv) hbind
    obtain ⟨S₂, h₂, hvalue⟩ :=
      hbodies _ (mem_cons_self ..) inner h₁.ordered hinner hbody
    have h₃ := (h₀.trans h₁).trans h₂
    have h₄ := h₃.endBranch (hresult.later h₃.later) hvalue (h₃.mayEnter hjoin)
    obtain ⟨S₅, ho₅, hl₅⟩ := ih (fun p hp => hbodies p (mem_cons_of_mem _ hp)) h₄.ordered
      (fun p hp => (hblocks p (mem_cons_of_mem _ hp)).later h₄.later)
      (hs.later h₄.later fun _ ht => ht) (hresult.later h₄.later)
      (hjoin.later h₄.later fun _ ht => ht) hrest
    exact ⟨S₅, ho₅, h₄.later.trans hl₅⟩

theorem keeps_discriminantOf {compared : Storage} (ho : Ordered n b S) (hv : Readable n scrutinee b S)
    (hm : Yields (discriminantOf scrutinee ty) ctx b (discriminant, compared) b') :
    Advance n b S b' S ∧ Readable n discriminant b' S := by
  rcases yields_discriminantOf.1 hm with ⟨enum, -, heq, rfl⟩ | ⟨-, heq, rfl⟩
  · cases heq
    exact (Advance.refl ho).define _ (by simpa [Instr.operands] using hv) (by simp [Instr.slots]) rfl
  · cases heq
    exact ⟨.refl ho, hv⟩

theorem keeps_lowerSelect {scrutinee : Part} {arms : List ArmPart}
    (hscrutinee : Keeps n s scrutinee.lower (Readable n))
    (harms : ∀ arm ∈ arms, ∀ inner, Keeps n inner (arm.body inner) (Readable n)) :
    Keeps n s (lowerSelect id scrutinee arms s) (Readable n) := by
  intro ctx b S v b' ho hs hm
  obtain ⟨ty, value, b₁, discriminant, compared, b₂, result, b₃, chosen, b₄, u, b₅, -, hvalue,
    hdiscriminant, hslot, htests, hbodies, rfl, rfl⟩ := yields_lowerSelect.1 hm
  obtain ⟨S₁, h₁, hv₁⟩ := hscrutinee ho hs hvalue
  obtain ⟨h₂, hv₂⟩ := keeps_discriminantOf h₁.ordered hv₁ hdiscriminant
  have h₁₂ := h₁.trans h₂
  obtain ⟨S₃, h₃, hresult⟩ := keeps_resultSlot id h₁₂.ordered (h₁₂.fits hs) hslot
  -- from here on the arms may read what is set now
  have hhere : Advance n b S b₃ S₃ := h₁₂.trans h₃
  obtain ⟨h₄, hjoin⟩ := (Advance.refl hhere.ordered).addBlock hhere.ordered.setHere_lt
  have hv := (h₂.trans h₃).known hv₁
  obtain ⟨S₅, h₅, hchosen⟩ := keeps_lowerTests h₄.start (h₃.known hv₂) (hjoin.mayEnter fun _ ht => ht) htests
  have h₄₅ := h₄.append h₅
  obtain ⟨S₆, ho₆, hl₆⟩ := keeps_lowerArms (fun p hp => harms p.2 (hchosen p hp).1) h₅.ordered
    (fun p hp => (hchosen p hp).2) ((hhere.fits hs).later h₄₅.later fun _ ht => ht) hv
    (hresult.later h₄₅.later) ((hjoin.later h₅.later).mayEnter fun _ ht => ht) hbodies
  obtain ⟨h₇, hv₇⟩ := Reaches.resume ho₆ (h₄₅.later.trans hl₆)
    (hresult.later (h₄₅.later.trans hl₆)) (hjoin.later (h₅.later.trans hl₆))
  exact ⟨S₆, hhere.trans h₇, hv₇⟩

/-! ### Conditionals -/

theorem Advance.choose (ho : Ordered n b S) (hv : Readable n v b S) (hasElse : Bool) :
    ∃ S', Advance n b S (b.choose v hasElse) S' ∧
      Enters (b.choose v hasElse) S' ⟨b.blocks.size + 1⟩ (b.SetHere S) ∧
        Enters (b.choose v hasElse) S'
          ⟨if hasElse then b.blocks.size + 2 else b.blocks.size + 1⟩ (b.SetHere S) := by
  cases hasElse with
  | true =>
    obtain ⟨S', hnew, hyes, hjoin, hno⟩ := Advance.addBlocks₃ ho
    have hbranch := hnew.start.branch (hnew.known hv) (hyes.mayEnter hnew.here) (hno.mayEnter hnew.here)
    have hthen := hbranch.switchTo (hyes.later hbranch.later)
    exact ⟨S', hnew.append hthen, hjoin.later hthen.later, hno.later hthen.later⟩
  | false =>
    obtain ⟨S', hnew, hyes, hjoin⟩ := Advance.addBlocks ho
    have hbranch := hnew.start.branch (hnew.known hv) (hyes.mayEnter hnew.here) (hjoin.mayEnter hnew.here)
    have hthen := hbranch.switchTo (hyes.later hbranch.later)
    exact ⟨S', hnew.append hthen, hjoin.later hthen.later, hjoin.later hthen.later⟩

/-- A conditional keeps the blocks in order if the slot of its result is there. -/
def KeepsChoice (n : Nat) (s : Scope) (choice : Conditional) (result : Option SlotId) : Prop :=
  ∀ ⦃ctx b S v b'⦄, Ordered n b S → Fitting s b S → HasSlot result b S →
    Yields (lowerConditional choice s result) ctx b v b' →
      ∃ S', Advance n b S b' S' ∧ Readable n v b' S'

/-- So does what stands under `else`, which starts in a block of its own. -/
def KeepsElse (n : Nat) (s : Scope) (otherwise : ElseBranch) (result : Option SlotId) : Prop :=
  ∀ ⦃ctx b S no join u b'⦄ ⦃K : TempId → Prop⦄, Ordered n b S → s.Fits b S K →
    HasSlot result b S → Enters b S no K → MayEnter b S K join →
      Yields (lowerElse otherwise s result no join) ctx b u b' →
        ∃ S', Ordered n b' S' ∧ Later b S b' S'

theorem keeps_lowerConditional {condition : Expr} {thenBlock : Block} {otherwise : ElseBranch}
    (hcondition : Keeps n s (lowerExpr condition s) (Readable n))
    (hthen : Keeps n s (lowerBlock thenBlock s) (Readable n)) (helse : KeepsElse n s otherwise result) :
    KeepsChoice n s ⟨condition, thenBlock, otherwise, span⟩ result := by
  intro ctx b S v b' ho hs hresult hm
  obtain ⟨c, b₁, value, b₂, u, b₃, hc, hvalue, hrest, rfl, rfl⟩ := yields_lowerConditional.1 hm
  obtain ⟨S₁, h₁, hv₁⟩ := hcondition ho hs hc
  obtain ⟨S₂, h₂, hjoin, hno⟩ := Advance.choose h₁.ordered hv₁ otherwise.isPresent
  obtain ⟨S₃, h₃, hv₃⟩ := hthen h₂.ordered (h₂.fits (h₁.fits hs)) hvalue
  have h₄ := h₂.start.trans h₃
  have h₅ := h₄.endBranch (hresult.later (h₁.trans (h₂.append h₄)).later) hv₃ (h₄.mayEnter_of_enters hjoin)
  have h₂₅ := h₂.append h₅
  obtain ⟨S₆, ho₆, hl₆⟩ := helse h₅.ordered ((h₁.fits hs).later h₂₅.later fun _ ht => ht)
    (hresult.later (h₁.later.trans h₂₅.later)) (hno.later h₅.later)
    ((hjoin.later h₅.later).mayEnter fun _ ht => ht) hrest
  have hl := h₂₅.later.trans hl₆
  obtain ⟨h₇, hv₇⟩ := Reaches.resume ho₆ hl (hresult.later (h₁.later.trans hl)) (hjoin.later (h₅.later.trans hl₆))
  exact ⟨S₆, h₁.trans h₇, hv₇⟩

theorem keepsElse_absent : KeepsElse n s .absent result := by
  intro ctx b S no join u b' K ho _ _ _ _ hm
  cases yields_lowerElse_absent.1 hm
  exact ⟨S, ho, Later.refl _ S⟩

theorem keepsElse_block {body : Block} (hbody : Keeps n s (lowerBlock body s) (Readable n)) :
    KeepsElse n s (.block body) result := by
  intro ctx b S no join u b' K ho hs hresult hno hjoin hm
  obtain ⟨value, b₁, hvalue, rfl⟩ := yields_lowerElse_block.1 hm
  have h₀ := Reaches.enter ho (Later.refl b S) hno fun _ ht => ht
  obtain ⟨S₁, h₁, hv₁⟩ := hbody h₀.ordered (h₀.fits hs) hvalue
  have h₂ := h₀.trans h₁
  have h₃ := h₂.endBranch (hresult.later h₂.later) hv₁ (h₂.mayEnter hjoin)
  exact ⟨S₁, h₃.ordered, h₃.later⟩

theorem keepsElse_elseIf {choice : Conditional} (hchoice : KeepsChoice n s choice result) :
    KeepsElse n s (.elseIf choice) result := by
  intro ctx b S no join u b' K ho hs hresult hno hjoin hm
  obtain ⟨value, b₁, hvalue, rfl⟩ := yields_lowerElse_elseIf.1 hm
  have h₀ := Reaches.enter ho (Later.refl b S) hno fun _ ht => ht
  obtain ⟨S₁, h₁, -⟩ := hchoice h₀.ordered (h₀.fits hs) (hresult.later h₀.later) hvalue
  have h₂ := h₀.trans h₁
  have h₃ := h₂.jump (h₂.mayEnter hjoin)
  exact ⟨S₁, h₃.ordered, h₃.later⟩

/-! ### Statements -/

theorem Advance.enterLoop (ho : Ordered n b S) : ∃ S', Advance n b S b.enterLoop S' ∧
      Enters b.enterLoop S' ⟨b.blocks.size⟩ (b.SetHere S) ∧
        Enters b.enterLoop S' ⟨b.blocks.size + 1⟩ (b.SetHere S) ∧
          Enters b.enterLoop S' ⟨b.blocks.size + 2⟩ (b.SetHere S) := by
  obtain ⟨S', hnew, hhead, hinside, hafter⟩ := Advance.addBlocks₃ ho
  have hjump := hnew.start.jump (hhead.mayEnter hnew.here)
  have henter := hjump.switchTo (hhead.later hjump.later)
  exact ⟨S', hnew.append henter, hhead.later henter.later, hinside.later henter.later, hafter.later henter.later⟩

theorem keeps_loop {condition : Expr} {body : Block} (hcondition : Keeps n s (lowerExpr condition s) (Readable n))
    (hbody : ∀ targets, Keeps n { s with loop := some targets }
      (lowerBlock body { s with loop := some targets }) (Readable n)) :
    Keeps n s (lowerStmt (.loop condition body span) s) Fitting := by
  intro ctx b S inner b' ho hs hm
  obtain ⟨c, b₁, v, b₂, hc, hv, hinner, rfl⟩ := yields_lowerStmt_loop.1 hm
  subst inner
  obtain ⟨S₀, h₀, hhead, hinside, hafter⟩ := Advance.enterLoop ho
  obtain ⟨S₁, h₁, hv₁⟩ := hcondition h₀.ordered (h₀.fits hs) hc
  have h₂ := h₀.start.trans h₁
  have h₃ := h₂.branch hv₁ (h₂.mayEnter_of_enters hinside) (h₂.mayEnter_of_enters hafter)
  have h₄ := h₃.switchTo (hinside.later h₃.later)
  have hloop : Scope.Fits { s with loop := some ⟨⟨b.blocks.size⟩, ⟨b.blocks.size + 2⟩⟩ } _ _ _ :=
    ⟨((h₀.append h₄).fits hs).locals, by
      rintro _ ⟨⟩
      exact ⟨h₄.mayEnter_of_enters hhead, h₄.mayEnter_of_enters hafter⟩⟩
  obtain ⟨S₅, h₅, -⟩ := hbody _ h₄.ordered hloop hv
  have h₆ := h₄.trans h₅
  have h₇ := h₆.jump (h₆.mayEnter_of_enters hhead)
  have h₈ := h₀.append (h₇.switchTo (hafter.later h₇.later))
  exact ⟨S₅, h₈, h₈.fits hs⟩

theorem keeps_bind {id : NodeId} {name : String} {ann : Option TypeAnn} {value : Option Expr} {isMutable : Bool}
    (hvalue : ∀ e ∈ value, Keeps n s (lowerExpr e s) (Readable n)) :
    Keeps n s (lowerStmt (.bind id name ann value isMutable span) s) Fitting := by
  intro ctx b S inner b' ho hs hm
  obtain ⟨ty, u, -, hinit, rfl⟩ := yields_lowerStmt_bind.1 hm
  have h₀ := (Advance.refl ho).addSlot ty
  have hslot : b.slots.size < (b.addSlot ty).slots.size := by simp
  cases value with
  | none =>
    obtain ⟨-, rfl⟩ := yields_pure.1 hinit
    exact ⟨S, h₀, (h₀.fits hs).declare name hslot⟩
  | some e =>
    obtain ⟨v, b₁, hv, rfl⟩ := yields_lowerInit_some.1 hinit
    obtain ⟨S₁, h₁, hv₁⟩ := hvalue e rfl h₀.ordered (h₀.fits hs) hv
    have hlt := Nat.lt_of_lt_of_le hslot h₁.later.slots
    have h₂ := (h₀.trans h₁).emit (i := .store ⟨b.slots.size⟩ v)
      (by simpa [Instr.operands] using hv₁) (by simpa [Instr.slots] using hlt) rfl
    exact ⟨S₁, h₂, (h₂.fits hs).declare name hlt⟩

theorem keeps_jump {target : LoopTargets → BlockId} (ho : Ordered n b S) (hs : Fitting s b S)
    (htarget : ∀ targets, s.loop = some targets → MayEnter b S (b.SetHere S) (target targets))
    (hm : Yields (lowerJump s target) ctx b u b') : ∃ S', Advance n b S b' S' ∧ Fitting s b' S' := by
  obtain ⟨targets, hloop, rfl⟩ := yields_lowerJump.1 hm
  obtain ⟨S', h⟩ := Advance.leave ho (t := .jump (target targets)) (by simp [Terminator.operands])
    (by simpa [Terminator.targets] using htarget targets hloop)
  exact ⟨S', h, h.fits hs⟩

theorem Keeps.discard {α : Type} {m : Lower α} {Q : α → Builder → Entry → Prop}
    (h : Keeps n s m Q) : Keeps n s (do let _ ← m; return s) Fitting := by
  intro ctx b S inner b' ho hs hm
  obtain ⟨a, ha, hinner⟩ := yields_bind_pure.1 hm
  subst inner
  obtain ⟨S', h', -⟩ := h ho hs ha
  exact ⟨S', h', h'.fits hs⟩

/-! ### The recursion -/

mutual

theorem keeps_lowerExpr (n : Nat) : ∀ (e : Expr) (s : Scope), Keeps n s (lowerExpr e s) (Readable n)
  | ⟨id, .literal value, _⟩, s => by
    rw [lowerExpr]
    exact keeps_lowerLiteral id value
  | ⟨id, .path path, _⟩, s => by
    rw [lowerExpr]
    exact keeps_lowerPath id path
  | ⟨id, .unary op operand, _⟩, s => by
    rw [lowerExpr]
    exact keeps_lowerUnary id op (keeps_lowerExpr n operand s)
  | ⟨_, .binary (.logic op) left right, _⟩, s => by
    rw [lowerExpr]
    exact keeps_lowerLogic op (keeps_lowerExpr n left s) (keeps_lowerExpr n right s)
  | ⟨id, .binary (.compare op) left right, _⟩, s | ⟨id, .binary (.arith op) left right, _⟩, s => by
    rw [lowerExpr]
    exact keeps_lowerEager id _ (keeps_lowerExpr n left s) (keeps_lowerExpr n right s)
  | ⟨id, .cast operand _, _⟩, s => by
    rw [lowerExpr]
    exact keeps_lowerCast id (keeps_lowerExpr n operand s)
  | ⟨id, .call callee args, _⟩, s => by
    rw [lowerExpr]
    exact keeps_lowerCall id callee (keeps_exprParts n args s)
  | ⟨id, .member base name _, _⟩, s => by
    rw [lowerExpr]
    exact keeps_lowerMember id name (keeps_lowerExpr n base s)
  | ⟨id, .record _ fields, _⟩, s => by
    rw [lowerExpr]
    exact keeps_lowerRecord id (keeps_lowerFields n fields s)
  | ⟨id, .select scrutinee arms, _⟩, s => by
    rw [lowerExpr]
    exact keeps_lowerSelect id (keeps_lowerExpr n scrutinee s) (keeps_armParts n arms)
  | ⟨id, .cond choice, _⟩, s => by
    rw [lowerExpr]
    intro ctx b S v b' ho hs hm
    obtain ⟨result, b₁, hresult, hm⟩ := yields_bind.1 hm
    obtain ⟨S₁, h₁, hslot⟩ := keeps_resultSlot id ho hs hresult
    obtain ⟨S₂, h₂, hv₂⟩ := keeps_choice n choice s result h₁.ordered (h₁.fits hs) hslot hm
    exact ⟨S₂, h₁.trans h₂, hv₂⟩
  | ⟨_, .block body, _⟩, s => by
    rw [lowerExpr]
    exact keeps_lowerBlock n body s

theorem keeps_exprParts (n : Nat) : ∀ (args : List Expr) (s : Scope),
    ∀ p ∈ exprParts args s, Keeps n s p.lower (Readable n)
  | [], _ => by
    rw [exprParts]
    exact forall_mem_nil _
  | e :: rest, s => by
    rw [exprParts]
    exact forall_mem_cons.2 ⟨keeps_lowerExpr n e s, keeps_exprParts n rest s⟩

theorem keeps_lowerFields (n : Nat) : ∀ (fields : List FieldInit) (s : Scope),
    Keeps n s (lowerFields fields s) (FieldsReadable n)
  | [], s => by
    intro ctx b S values b' ho _ hm
    obtain ⟨rfl, rfl⟩ := yields_lowerFields_nil.1 hm
    exact ⟨S, .refl ho, forall_mem_nil _⟩
  | ⟨name, value, _⟩ :: rest, s => by
    intro ctx b S values b' ho hs hm
    obtain ⟨v, b₁, more, hv, hmore, rfl⟩ := yields_lowerFields_cons.1 hm
    obtain ⟨S₁, h₁, hv₁⟩ := keeps_lowerExpr n value s ho hs hv
    obtain ⟨S₂, h₂, hv₂⟩ := keeps_lowerFields n rest s h₁.ordered (h₁.fits hs) hmore
    exact ⟨S₂, h₁.trans h₂, forall_mem_cons.2 ⟨h₂.known hv₁, hv₂⟩⟩

theorem keeps_armParts (n : Nat) : ∀ (arms : List Arm),
    ∀ arm ∈ armParts arms, ∀ inner, Keeps n inner (arm.body inner) (Readable n)
  | [] => by
    rw [armParts]
    exact forall_mem_nil _
  | ⟨_, body, _⟩ :: rest => by
    rw [armParts]
    exact forall_mem_cons.2 ⟨keeps_lowerExpr n body, keeps_armParts n rest⟩

theorem keeps_choice (n : Nat) : ∀ (choice : Conditional) (s : Scope) (result : Option SlotId),
    KeepsChoice n s choice result
  | ⟨condition, thenBlock, otherwise, _⟩, s, result =>
    keeps_lowerConditional (keeps_lowerExpr n condition s) (keeps_lowerBlock n thenBlock s)
      (keeps_lowerElse n otherwise s result)

theorem keeps_lowerElse (n : Nat) : ∀ (otherwise : ElseBranch) (s : Scope)
    (result : Option SlotId), KeepsElse n s otherwise result
  | .absent, _, _ => keepsElse_absent
  | .block body, s, _ => keepsElse_block (keeps_lowerBlock n body s)
  | .elseIf choice, s, result => keepsElse_elseIf (keeps_choice n choice s result)

theorem keeps_lowerBlock (n : Nat) : ∀ (body : Block) (s : Scope), Keeps n s (lowerBlock body s) (Readable n)
  | ⟨stmts, tail, _⟩, s => by
    intro ctx b S v b' ho hs hm
    obtain ⟨inner, b₁, hstmts, htail⟩ := yields_lowerBlock.1 hm
    obtain ⟨S₁, h₁, hinner⟩ := keeps_lowerStmts n stmts s ho hs hstmts
    obtain ⟨S₂, h₂, hv₂⟩ := keeps_lowerTail n tail inner h₁.ordered hinner htail
    exact ⟨S₂, h₁.trans h₂, hv₂⟩

theorem keeps_lowerTail (n : Nat) : ∀ (tail : Option Expr) (s : Scope), Keeps n s (lowerTail tail s) (Readable n)
  | none, s => by
    intro ctx b S v b' ho _ hm
    obtain ⟨rfl, rfl⟩ := yields_pure.1 hm
    exact ⟨S, .refl ho, trivial⟩
  | some e, s => keeps_lowerExpr n e s

theorem keeps_lowerStmts (n : Nat) : ∀ (stmts : List Stmt) (s : Scope), Keeps n s (lowerStmts stmts s) Fitting
  | [], s => by
    intro ctx b S inner b' ho hs hm
    obtain ⟨rfl, rfl⟩ := yields_lowerStmts_nil.1 hm
    exact ⟨S, .refl ho, hs⟩
  | stmt :: rest, s => by
    intro ctx b S inner b' ho hs hm
    obtain ⟨s₁, b₁, hstmt, hrest⟩ := yields_lowerStmts_cons.1 hm
    obtain ⟨S₁, h₁, hs₁⟩ := keeps_lowerStmt n stmt s ho hs hstmt
    obtain ⟨S₂, h₂, hs₂⟩ := keeps_lowerStmts n rest s₁ h₁.ordered hs₁ hrest
    exact ⟨S₂, h₁.trans h₂, hs₂⟩

theorem keeps_lowerStmt (n : Nat) : ∀ (stmt : Stmt) (s : Scope), Keeps n s (lowerStmt stmt s) Fitting
  | .bind _ _ _ none _ _, _ => keeps_bind (by simp)
  | .bind _ _ _ (some e) _ _, s => keeps_bind (by simpa using keeps_lowerExpr n e s)
  | .assign target value _, s => by
    intro ctx b S inner b' ho hs hm
    obtain ⟨v, b₁, slot, hv, hslot, hinner, rfl⟩ := yields_lowerStmt_assign.1 hm
    subst inner
    obtain ⟨S₁, h₁, hv₁⟩ := keeps_lowerExpr n value s ho hs hv
    have h₂ := h₁.emit (i := .store slot v) (by simpa [Instr.operands] using hv₁)
      (by simpa [Instr.slots] using (h₁.fits hs).find? hslot) rfl
    exact ⟨S₁, h₂, h₂.fits hs⟩
  | .assignField base fields value _, s => by
    intro ctx b S inner b' ho hs hm
    obtain ⟨v, b₁, slot, path, last, hv, hslot, -, hinner, rfl⟩ :=
      yields_lowerStmt_assignField.1 hm
    subst inner
    obtain ⟨S₁, h₁, hv₁⟩ := keeps_lowerExpr n value s ho hs hv
    have h₂ := h₁.emit (i := .storeField slot path v) (by simpa [Instr.operands] using hv₁)
      (by simpa [Instr.slots] using (h₁.fits hs).find? hslot) rfl
    exact ⟨S₁, h₂, h₂.fits hs⟩
  | .expr e, s => by
    rw [lowerStmt]
    exact (keeps_lowerExpr n e s).discard
  | .ret value _, s => by
    intro ctx b S inner b' ho hs hm
    obtain ⟨v, b₁, hv, hinner, rfl⟩ := yields_lowerStmt_ret.1 hm
    subst inner
    obtain ⟨S₁, h₁, hv₁⟩ := keeps_lowerTail n value s ho hs hv
    obtain ⟨S₂, h₂⟩ := Advance.leave h₁.ordered (t := .ret v)
      (by simpa [Terminator.operands] using hv₁) (by simp [Terminator.targets])
    exact ⟨S₂, h₁.trans h₂, (h₁.trans h₂).fits hs⟩
  | .cond choice, s => by
    intro ctx b S inner b' ho hs hm
    obtain ⟨v, hv, hinner⟩ := yields_lowerStmt_cond.1 hm
    subst inner
    obtain ⟨S₁, h₁, -⟩ := keeps_choice n choice s none ho hs (by simp [HasSlot]) hv
    exact ⟨S₁, h₁, h₁.fits hs⟩
  | .loop condition body _, s =>
    keeps_loop (keeps_lowerExpr n condition s) fun _ => keeps_lowerBlock n body _
  | .brk _, s => by
    intro ctx b S inner b' ho hs hm
    rw [lowerStmt] at hm
    obtain ⟨u, hjump, hinner⟩ := yields_bind_pure.1 hm
    subst inner
    exact keeps_jump ho hs (fun targets h => (hs.loop targets h).2) hjump
  | .cont _, s => by
    intro ctx b S inner b' ho hs hm
    rw [lowerStmt] at hm
    obtain ⟨u, hjump, hinner⟩ := yields_bind_pure.1 hm
    subst inner
    exact keeps_jump ho hs (fun targets h => (hs.loop targets h).1) hjump
  | .block body, s => by
    rw [lowerStmt]
    exact (keeps_lowerBlock n body s).discard

end

/-! ### Functions -/

theorem keeps_lowerParams {params : List (String × Storage × Nat)}
    (hparams : ∀ p ∈ params, p.2.2 < n) : Keeps n s (lowerParams params s) Fitting := by
  induction params generalizing s with
  | nil =>
    intro ctx b S inner b' ho hs hm
    obtain ⟨rfl, rfl⟩ := yields_lowerParams_nil.1 hm
    exact ⟨S, .refl ho, hs⟩
  | cons p rest ih =>
    obtain ⟨name, ty, index⟩ := p
    intro ctx b S inner b' ho hs hm
    obtain ⟨hindex, hrest⟩ := forall_mem_cons.1 hparams
    obtain ⟨h₁, hs₁⟩ := (Advance.refl ho).declare hs name ty (v := .param index) hindex
    obtain ⟨S₂, h₂, hs₂⟩ := ih hrest h₁.ordered hs₁ (yields_lowerParams_cons.1 hm)
    exact ⟨S₂, h₁.trans h₂, hs₂⟩

theorem index_lt_of_mem_zip {names : List String} {params : List Storage} :
    ∀ p ∈ names.zip params.zipIdx, p.2.2 < params.length := by
  rintro ⟨name, ty, index⟩ hp
  have hmem := (of_mem_zip hp).2
  have := snd_lt_of_mem_zipIdx hmem
  omega

theorem pending_empty (k : Nat) : ({} : Builder).pending k = {} :=
  Builder.pending_of_size_le _ (Nat.zero_le k)

theorem ordered_start : Ordered n (({} : Builder).addBlock.switchTo ⟨0⟩) fun _ _ => False where
  current := by simp
  first _ := id
  entry _ _ := False.elim
  slots k i hi := by simp [pending_empty] at hi
  temps k t ht := by simp [pending_empty] at ht
  used k earlier i later h := by simp [pending_empty] at h
  ended k t h := by simp [pending_empty] at h
  once := by simp [Builder.addBlock]

theorem ordered_lowerBody {decl : FunctionDef} {params : List Storage} {ret : Storage}
    (hm : Yields (lowerBody decl params ret) ctx {} u b) : ∃ S, Ordered params.length b S := by
  obtain ⟨s, b₁, v, b₂, hparams, hbody, rfl⟩ := yields_lowerBody.1 hm
  have hs : Fitting {} (({} : Builder).addBlock.switchTo ⟨0⟩) fun _ _ => False :=
    ⟨by simp, by simp⟩
  obtain ⟨S₁, h₁, hs₁⟩ := keeps_lowerParams index_lt_of_mem_zip ordered_start hs hparams
  obtain ⟨S₂, h₂, hv₂⟩ := keeps_lowerBlock params.length decl.body s h₁.ordered hs₁ hbody
  refine ⟨S₂, ((Advance.refl h₂.ordered).terminate ?_ ?_).ordered⟩
  · unfold bodyEnd
    split <;> simp [Terminator.operands, hv₂]
  · unfold bodyEnd
    split <;> simp [Terminator.targets]

/-! ### Finished functions -/

section Finished

variable {f : Ir.Function} (ho : Ordered f.params.length b S) (hf : Finished b f.blocks)

include ho hf

theorem Ordered.singleAssignment : f.SingleAssignment :=
  (hf.flatMap_sublist Ir.dests).nodup ho.once

/-- Whichever way control comes to a block, it has come past what sets the temporaries
that the block is entered with. -/
theorem Ordered.set_of_path {before : List Ir.Block} {block : Ir.Block} (hpath : f.Path before block) :
    ∀ t, S block.id.index t → t ∈ Ir.dests (before.flatMap (·.instrs)) := by
  induction hpath with
  | start hhead =>
    intro t ht
    rw [hf.head_index hhead] at ht
    exact absurd ht (ho.first t)
  | @step before block next hpath hnext htarget ih =>
    intro t ht
    obtain ⟨-, hpending⟩ := hf.pending_of_mem hpath.mem
    obtain ⟨-, hset⟩ := (ho.ended block.id.index block.terminator (by rw [hpending])).2 _ htarget
    rw [flatMap_append, Ir.dests_append, mem_append]
    rcases hset t ht with hentry | hhere
    · exact .inl (ih t hentry)
    · rw [hpending] at hhere
      exact .inr (by simpa using hhere)

theorem Ordered.setBeforeUse : f.SetBeforeUse where
  instrs before block hpath earlier i later heq t ht := by
    obtain ⟨-, hpending⟩ := hf.pending_of_mem hpath.mem
    have hknown := ho.used block.id.index earlier i later (by simp [hpending, heq]) _ ht
    rw [Ir.dests_append, mem_append]
    exact hknown.imp_left (ho.set_of_path hf hpath t)
  terminators before block hpath t ht := by
    obtain ⟨-, hpending⟩ := hf.pending_of_mem hpath.mem
    have hknown := (ho.ended block.id.index block.terminator (by rw [hpending])).1 _ ht
    rw [Ir.dests_append, mem_append]
    refine hknown.imp (ho.set_of_path hf hpath t) fun h => ?_
    simpa [hpending] using h

theorem Ordered.inRange (hslots : f.slots = b.slots.toList) (htemps : f.temps = b.temps.toList) : f.InRange := by
  have hset : ∀ (k : Nat) (t : TempId), b.SetAt S k t → t.index < f.temps.length := by
    rintro k t (ht | ht)
    · simpa [htemps] using ho.entry k t ht
    · simpa [htemps] using ho.temps k t ht
  have hoperand : ∀ (k : Nat) (o : Operand), o.Known f.params.length (b.SetAt S k) → f.HasOperand o := by
    rintro k (index | id | c) h
    · exact h
    · exact hset k id h
    · trivial
  refine ⟨?_, ?_, ?_, ?_⟩
  · intro block hb i hi slot hslot
    obtain ⟨-, hpending⟩ := hf.pending_of_mem hb
    have hlt := ho.slots block.id.index i (by rw [hpending]; simpa using hi) slot hslot
    simpa [hslots] using hlt
  · intro block hb i hi t ht
    obtain ⟨-, hpending⟩ := hf.pending_of_mem hb
    refine hset block.id.index t (.inr ?_)
    rw [hpending]
    exact mem_filterMap.2 ⟨i, by simpa using hi, ht⟩
  · intro block hb i hi o ho'
    obtain ⟨-, hpending⟩ := hf.pending_of_mem hb
    obtain ⟨earlier, later, heq⟩ := append_of_mem hi
    refine hoperand block.id.index o
      ((ho.used block.id.index earlier i later (by simp [hpending, heq]) o ho').mono ?_)
    rintro t (ht | ht)
    · exact .inl ht
    · refine .inr ?_
      rw [hpending, heq]
      simp [ht]
  · intro block hb o ho'
    obtain ⟨-, hpending⟩ := hf.pending_of_mem hb
    exact hoperand _ o ((ho.ended block.id.index block.terminator (by rw [hpending])).1 o ho')

end Finished

/-- **Lowered functions set temporaries once, and before they are used.**  In every function
of a lowered program all slots, temporaries and parameters that occur are the function's own,
no temporary is set by two instructions, and on every path from the first block to a use of a
temporary there is the instruction that sets it. -/
theorem lowerProgram_singleAssignment {program : CheckedProgram} {entry : Option QualName}
    {ir : Ir.Program} (h : lowerProgram program entry = .ok ir) {name : String} {f : Ir.Function}
    (hf : ir.functions.get? name = some f) :
    f.InRange ∧ f.SingleAssignment ∧ f.SetBeforeUse := by
  obtain ⟨_, _, _, b, -, -, hlowered⟩ := exists_lowered_of_get? h hf
  obtain ⟨S, ho⟩ := ordered_lowerBody hlowered.body
  have hfinished := finished_of_finish hlowered.blocks
  exact ⟨ho.inRange hfinished hlowered.parts.2.1 hlowered.parts.2.2,
    ho.singleAssignment hfinished, ho.setBeforeUse hfinished⟩

/-- `fn pick(c: bool) -> i64 { if c { 1 } else { 2 } }`. -/
def pickDecl : FunctionDef :=
  let span := Span.zero
  let number (id : NodeId) (value : Int) : Block :=
    ⟨[], some ⟨id, .literal (.int value), span⟩, span⟩
  let condition : Expr := ⟨1, .path ⟨["c"], []⟩, span⟩
  { name := "pick"
    typeParams := []
    params := [⟨"c", ⟨.named ["bool"] [], span⟩, false, span⟩]
    ret := some ⟨.named ["i64"] [], span⟩
    body := ⟨[], some ⟨0, .cond ⟨condition, number 2 1, .block (number 3 2), span⟩, span⟩, span⟩
    span := span
    isPublic := false }

def pickProgram : CheckedProgram :=
  let name : QualName := ⟨⟨"app", []⟩, "pick"⟩
  let sig : FunctionSig := ⟨name, [⟨"c", .bool, false⟩], .i64, name.module, false, Span.zero⟩
  let types := (((Std.TreeMap.empty.insert 0 .i64).insert 1 .bool).insert 2 .i64).insert 3 .i64
  { functions := Std.TreeMap.empty.insert name ⟨name, name.module, ⟨"app/main.kl"⟩, pickDecl⟩
    signatures := { functions := Std.TreeMap.empty.insert name sig }
    resolutions := { exprTypes := types } }

def pickLowered : Ir.Function where
  name := "app::pick"
  params := [.bool]
  ret := .int .i64
  slots := [.bool, .int .i64]
  temps := [.bool, .int .i64]
  blocks :=
    [⟨⟨0⟩, [.store ⟨0⟩ (.param 0), .load ⟨0⟩ ⟨0⟩], .branch (.temp ⟨0⟩) ⟨1⟩ ⟨3⟩⟩,
      ⟨⟨1⟩, [.store ⟨1⟩ (.int 1 .i64)], .jump ⟨2⟩⟩,
      ⟨⟨2⟩, [.load ⟨1⟩ ⟨1⟩], .ret (.temp ⟨1⟩)⟩,
      ⟨⟨3⟩, [.store ⟨1⟩ (.int 2 .i64)], .jump ⟨2⟩⟩]

theorem lowerProgram_singleAssignment_pick :
    ∃ ir, lowerProgram pickProgram none = .ok ir ∧
      ir.functions.get? "app::pick" = some pickLowered ∧
        pickLowered.InRange ∧ pickLowered.SingleAssignment ∧ pickLowered.SetBeforeUse := by
  let ir : Ir.Program := { functions := Std.TreeMap.empty.insert "app::pick" pickLowered }
  have hlower : lowerProgram pickProgram none = .ok ir := rfl
  have hget : ir.functions.get? "app::pick" = some pickLowered := rfl
  exact ⟨ir, hlower, hget, lowerProgram_singleAssignment hlower hget⟩

end Keel.Lowering
