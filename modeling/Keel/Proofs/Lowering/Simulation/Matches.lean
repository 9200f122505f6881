/-
# Matches are followed

The tests of a match lead to the block of the first arm whose pattern the value has.
There the variables of the pattern get their slots, and the code of the body follows.
-/
import Keel.Proofs.Lowering.Simulation.Branches

namespace Keel

open List Option

/-- Tags are told apart by the numbers that are compared. -/
theorem Tag.value_ofInt (tag : Tag) : (Number.ofInt .i32 tag.val).value = tag.val := by
  refine IntKind.wrap_of_contains ?_
  have hlt : tag.val < 2147483648 := tag.isLt
  rw [IntKind.contains, Bool.and_eq_true, decide_eq_true_eq, decide_eq_true_eq]
  simp only [IntKind.min, IntKind.max]
  omega

theorem Number.beq_eq (m n : Number) (h : m.kind = n.kind) : (m == n) = (n.value == m.value) := by
  obtain ⟨kind, value, hm⟩ := m
  obtain ⟨kind', value', hn⟩ := n
  cases h
  rw [Bool.eq_iff_iff, beq_iff_eq, beq_iff_eq, Number.mk.injEq]
  simp [eq_comm]

namespace Lowering

open Ir (Storage Operand Instr BlockId TempId SlotId Frame Effect Leads)
open Source (Local State Exit Eval)
open Source.Eval (expect_bind_eq_some)

variable {R : Running} {s inner : Scope} {b b₀ b' : Builder} {v : Operand} {f : Frame}
  {callers : List (Frame × TempId)} {σ : State} {w : World}

/-! ### Tests -/

/-- What the tests compare: the tag of a variant, and other values themselves. -/
def Compares (ty : Storage) (value : Value) (compared : Storage) (d : Value) : Prop :=
  (∃ enum tag payload, ty = .enum enum ∧ value = .variant tag payload ∧ compared = .int .i32 ∧
    d = .int (.ofInt .i32 tag.val)) ∨
  ((∀ enum, ty ≠ .enum enum) ∧ compared = ty ∧ d = value)

variable {ty compared : Storage} {value d : Value} {ref : VariantRef} {matched : Bool} {p : Pattern}
  {expected : Operand} {block join : BlockId} {arms : List ArmPart} {cases : List (Pattern × Eval Value)}
  {chosen : List (BlockId × ArmPart)} {arm : ArmPart} {locals declared : List Local} {t : Ty}
  {result : Option SlotId}

theorem Compares.holds (h : Compares ty value compared d) (hof : ty.holds value) : compared.holds d := by
  rcases h with ⟨_, _, _, -, -, rfl, rfl⟩ | ⟨-, rfl, rfl⟩
  · rfl
  · exact hof

theorem compare?_tag {tag : Tag} (h : ref.tag?.map (· == tag) = some matched) :
    Value.compare? .eq (.int (.ofInt .i32 tag.val)) (.int (.ofInt .i32 ref.index)) = some matched := by
  obtain ⟨tag', htag', rfl⟩ := map_eq_some_iff.1 h
  unfold VariantRef.tag? at htag'
  split at htag'
  · rename_i hlt
    cases htag'
    have hindex : (Number.ofInt .i32 ref.index).value = ref.index := Tag.value_ofInt ⟨ref.index, hlt⟩
    have hbeq : ((tag.val : Int) == ((ref.index : Nat) : Int)) = ((⟨ref.index, hlt⟩ : Tag) == tag) := by
      rw [Bool.eq_iff_iff, beq_iff_eq, beq_iff_eq, Fin.ext_iff, Int.ofNat_inj, eq_comm]
    simp only [Value.compare?, Number.kind_ofInt, if_true, CompareOp.holds, Tag.value_ofInt tag]
    rw [hindex, hbeq]
  · cases htag'

theorem compare?_literal (href : R.program.resolutions.variants.get? p.id = none)
    (htest : R.ctx.test? p ty = some (some expected)) (hof : ty.holds value)
    (hmatch : R.setting.isMatch p value = some matched) : (∀ enum, ty ≠ .enum enum) ∧
      ∃ e, f.value? expected = some e ∧ Value.compare? .eq value e = some matched := by
  unfold Context.test? at htest
  unfold Source.Setting.isMatch at hmatch
  rw [show R.ctx.program.resolutions.variants.get? p.id = none from href] at htest
  rw [show R.setting.program.resolutions.variants.get? p.id = none from href] at hmatch
  cases hkind : p.kind with
  | int n =>
    rw [hkind] at htest hmatch
    cases ty with
    | int kind =>
      cases htest
      cases value with
      | int m =>
        cases hmatch
        obtain rfl : m.kind = kind := by simpa [Storage.holds] using hof
        refine ⟨fun _ h => (by cases h), .int (.ofInt m.kind n), rfl, ?_⟩
        simp only [Value.compare?, Number.kind_ofInt, if_true, CompareOp.holds]
        rw [Number.beq_eq _ _ (Number.kind_ofInt _ _)]
      | _ => cases hmatch
    | _ => cases htest
  | bool expected =>
    rw [hkind] at htest hmatch
    cases ty with
    | bool =>
      cases htest
      cases value with
      | bool m =>
        cases hmatch
        exact ⟨fun _ h => (by cases h), .bool expected, rfl, by cases m <;> cases expected <;> rfl⟩
      | _ => cases hmatch
    | _ => cases htest
  | str expected =>
    rw [hkind] at htest hmatch
    cases ty with
    | str =>
      cases htest
      cases value with
      | str m =>
        cases hmatch
        refine ⟨fun _ h => (by cases h), .str expected, rfl, ?_⟩
        rw [Value.compare?, show (m == expected) = (expected == m) from BEq.comm]
      | _ => cases hmatch
    | _ => cases htest
  | _ =>
    rw [hkind] at htest
    cases htest

theorem compare?_of_isMatch (htest : R.ctx.test? p ty = some (some expected)) (hof : ty.holds value)
    (hd : Compares ty value compared d) (hmatch : R.setting.isMatch p value = some matched) :
    ∃ e, f.value? expected = some e ∧ Value.compare? .eq d e = some matched := by
  cases href : R.program.resolutions.variants.get? p.id with
  | none =>
    obtain ⟨hne, hcompare⟩ := compare?_literal (f := f) href htest hof hmatch
    rcases hd with ⟨enum, _, _, rfl, -⟩ | ⟨-, -, rfl⟩
    · exact absurd rfl (hne enum)
    · exact hcompare
  | some ref =>
    unfold Context.test? at htest
    unfold Source.Setting.isMatch at hmatch
    rw [show R.ctx.program.resolutions.variants.get? p.id = some ref from href] at htest
    rw [show R.setting.program.resolutions.variants.get? p.id = some ref from href] at hmatch
    cases htest
    rcases hd with ⟨_, tag, _, -, rfl, -, rfl⟩ | ⟨hne, -, rfl⟩
    · exact ⟨_, rfl, compare?_tag hmatch⟩
    · cases d with
      | variant => cases ty <;> first | exact absurd rfl (hne _) | cases hof
      | _ => cases hmatch

theorem leads_test (callers : List (Frame × TempId)) (w : World) (hat : At R.function b f) (ho : b.Open)
    (hgrows : Grows (b.test v expected compared block) R.final) {e : Value} (hd : f.value? v = some d)
    (he : f.value? expected = some e) (hholds : compared.holds d) (hmatch : Value.compare? .eq d e = some matched) :
    ∃ f', Leads R.ir ⟨f, callers, w⟩ (.go ⟨f', callers, w⟩) ∧ Stays b f f' ∧ f'.slots = f.slots ∧
      if matched then Starts R.function block f'
      else At R.function (b.test v expected compared block) f' := by
  have ho₁ := ho.define .bool fun dest => .binary dest (.compare .eq) v expected compared
  have hgrows₂ := (Grows.switchTo _ _).trans hgrows
  have hgrows₁ := ((Grows.addBlock _).trans (Grows.terminate ho₁.addBlock _)).trans hgrows₂
  have heffect : Instr.effect? f w (.binary ⟨b.temps.size⟩ (.compare .eq) v expected compared) =
      some (.define ⟨b.temps.size⟩ (.bool matched), w) := by
    simp [Instr.effect?, hd, he, Ir.EagerOp.perform?, hholds, hmatch, Effect.ofResult]
  obtain ⟨hl₁, hat₁⟩ := leads_define (i := fun dest => .binary dest (.compare .eq) v expected compared)
    hat ho R.realizes hgrows₁ heffect
  obtain ⟨hl₂, hstart⟩ := leads_branch hat₁.addBlock ho₁.addBlock R.realizes hgrows₂ (if_pos rfl)
  refine ⟨_, hl₁.trans hl₂, (Stays.setTemp (Nat.le_refl _) f _).trans (.jump b _ _), rfl, ?_⟩
  cases matched with
  | true => exact hstart
  | false =>
    have hnext := Reserved.addBlock ho₁
    rw [Builder.size_define] at hnext
    exact hstart.at_switchTo (hnext.terminate ho₁.addBlock _)

theorem isMatch_of_test?_none (htest : R.ctx.test? p ty = some none) : R.setting.isMatch p value = some true := by
  unfold Context.test? at htest
  unfold Source.Setting.isMatch
  split at htest
  · cases htest
  · rename_i href
    rw [show R.setting.program.resolutions.variants.get? p.id = none from href]
    cases hkind : p.kind with
    | wildcard | bind name => rfl
    | variant => rw [hkind] at htest; cases htest
    | _ => rw [hkind] at htest; cases ty <;> cases htest

structure ArmTracks (R : Running) (arm : ArmPart) (p : Pattern × Eval Value) : Prop where
  pattern : arm.pattern = p.1
  extending : ∀ inner, Extending (arm.body inner)
  simulates : ∀ inner, Simulates R inner (arm.body inner) p.2

/-- The first arm whose pattern the value has, by its place. -/
theorem ArmTracks.first (harms : List.Forall₂ (ArmTracks R) arms cases) {p : Pattern × Eval Value}
    (hfirst : R.setting.firstMatch value cases = some p) :
    ∃ i arm, arms[i]? = some arm ∧ ArmTracks R arm p ∧ R.setting.isMatch arm.pattern value = some true ∧
      ∀ other ∈ arms.take i, R.setting.isMatch other.pattern value = some false := by
  induction harms with
  | nil => cases hfirst
  | @cons arm c arms cases harm _ ih =>
    obtain ⟨matched, hmatch, hfirst⟩ := bind_eq_some_iff.1 hfirst
    rw [← harm.pattern] at hmatch
    cases matched with
    | true =>
      cases hfirst
      exact ⟨0, arm, rfl, harm, hmatch, by simp⟩
    | false =>
      obtain ⟨i, arm', harm', htracks, hmatch', hbefore⟩ := ih hfirst
      refine ⟨i + 1, arm', harm', htracks, hmatch', ?_⟩
      rw [take_succ_cons]
      exact forall_mem_cons.2 ⟨hmatch, hbefore⟩

/-- **The tests lead to the block of the first arm whose pattern the value has.** -/
theorem leads_lowerTests (callers : List (Frame × TempId)) (w : World) (hof : ty.holds value)
    (hd : Compares ty value compared d) (ho : b.Open)
    (hm : Yields (lowerTests v compared ty join arms) R.ctx b chosen b') (hgrows : Grows b' R.final)
    (hat : At R.function b f) (hv : f.value? v = some d) (hbelow : v.Below b.temps.size) {i : Nat}
    (harm : arms[i]? = some arm) (hmatch : R.setting.isMatch arm.pattern value = some true)
    (hbefore : ∀ other ∈ arms.take i, R.setting.isMatch other.pattern value = some false) :
    ∃ block f', chosen[i]? = some (block, arm) ∧ Leads R.ir ⟨f, callers, w⟩ (.go ⟨f', callers, w⟩) ∧
      Stays b f f' ∧ f'.slots = f.slots ∧ Starts R.function block f' := by
  induction arms generalizing b f chosen i with
  | nil => cases harm
  | cons first rest ih =>
    obtain ⟨test, htest, hm⟩ := yields_lowerTests_cons.1 hm
    obtain ⟨matched, hfirst, hnext⟩ : ∃ matched, R.setting.isMatch first.pattern value = some matched ∧
        (matched = true ↔ i = 0) := by
      cases i with
      | zero =>
        cases harm
        exact ⟨true, hmatch, by simp⟩
      | succ i => exact ⟨false, hbefore first (by simp), by simp⟩
    cases test with
    | none =>
      obtain ⟨rfl, rfl⟩ := hm
      obtain rfl : matched = true := by rw [isMatch_of_test?_none htest] at hfirst; cases hfirst; rfl
      obtain rfl := hnext.1 rfl
      cases harm
      obtain ⟨hl, hstart⟩ := leads_jump hat.addBlock ho.addBlock R.realizes hgrows
      exact ⟨_, _, rfl, hl, .jump b f _, rfl, hstart⟩
    | some expected =>
      obtain ⟨more, hmore, rfl⟩ := hm
      obtain ⟨⟨h₁, ho₁⟩, -⟩ := ho.test v expected compared
      have hgrows₁ := (await_lowerTests ho₁ hmore).1.grows.trans hgrows
      obtain ⟨e, he, hcompare⟩ := compare?_of_isMatch (f := f) htest hof hd hfirst
      obtain ⟨f₁, hl₁, hs₁, hslots₁, hnext₁⟩ := leads_test callers w hat.addBlock ho.addBlock hgrows₁ hv he
        (hd.holds hof) hcompare
      replace hs₁ : Stays b f f₁ := hs₁.weaken (Grows.addBlock b).temps
      cases i with
      | zero =>
        obtain rfl := hnext.2 rfl
        cases harm
        exact ⟨_, f₁, rfl, hl₁, hs₁, hslots₁, hnext₁⟩
      | succ i =>
        obtain rfl : matched = false := by simpa using hnext
        obtain ⟨block, f₂, hchosen, hl₂, hs₂, hslots₂, hstart⟩ := ih ho₁ hmore hnext₁
          ((hs₁.value? hbelow).trans hv) (hbelow.mono h₁.grows.temps) harm
          fun other hother => hbefore other (by simp [hother])
        exact ⟨block, f₂, hchosen, hl₁.trans hl₂, hs₁.trans (hs₂.weaken h₁.grows.temps),
          hslots₂.trans hslots₁, hstart⟩

/-! ### Variables of patterns -/

theorem slotType_fresh {final : Builder} (h : Grows (b.addSlot ty) final) : final.slotType ⟨b.slots.size⟩ = ty := by
  rw [h.slotType (by simp)]
  simp [Builder.slotType, Builder.addSlot]

theorem leads_declare (callers : List (Frame × TempId)) (w : World) (hat : At R.function b f) (ho : b.Open)
    (hmodels : Models R.final s f.slots locals) {slot : SlotId} (hgrows : Grows (b.emit (.store slot v)) R.final)
    (hv : f.value? v = some value) (hslot : slot ∉ s.locals.map Prod.snd)
    (ht : storage t = .ok (R.final.slotType slot)) (name : String) :
    ∃ f', Leads R.ir ⟨f, callers, w⟩ (.go ⟨f', callers, w⟩) ∧ (∀ n, Stays n f f') ∧
      At R.function (b.emit (.store slot v)) f' ∧
        Models R.final (s.declare name slot) f'.slots (⟨name, t, some value⟩ :: locals) := by
  have he : Instr.effect? f w (.store slot v) = some (.assign slot value, w) := by
    simp [Instr.effect?, hv]
  obtain ⟨hl, hat'⟩ := leads_store hat ho R.realizes hgrows he
  refine ⟨_, hl, fun n => .setSlot n f slot value, hat', (hmodels.setSlot hslot).declare ht ?_⟩
  rintro _ ⟨⟩
  exact if_pos rfl

def Declares (s : Scope) (b : Builder) (inner : Scope) (b' : Builder) : Prop :=
  inner = s ∨ ∃ name, inner = s.declare name ⟨b.slots.size⟩ ∧ b.slots.size < b'.slots.size

theorem Declares.widens (h : Declares s b inner b') : Widens s inner := by
  rcases h with rfl | ⟨name, rfl, -⟩
  · exact .refl inner
  · exact .declare s name _

theorem Declares.placed (h : Declares s b inner b') (hp : Placed s b)
    (hle : b.slots.size ≤ b'.slots.size) : Placed inner b' := by
  rcases h with rfl | ⟨name, rfl, hlt⟩
  · exact hp.grows hle
  · exact hp.declare hlt name

theorem Declares.apart (h : Declares s b inner b') (ha : Apart s result)
    (hlt : ∀ slot, result = some slot → slot.index < b.slots.size) : Apart inner result := by
  rcases h with rfl | ⟨name, rfl, -⟩
  · exact ha
  · intro slot hslot hmem
    rcases mem_cons.1 hmem with rfl | hmem
    · exact Nat.lt_irrefl _ (hlt _ hslot)
    · exact ha slot hslot hmem

theorem leads_bindPayload (hat : At R.function b f) (ho : b.Open) (hp : Placed s b)
    (hmodels : Models R.final s f.slots locals) {variant : String} {fields : List Pattern}
    (hm : Yields (bindPayload v ref variant fields.zipIdx s) R.ctx b inner b') (hgrows : Grows b' R.final)
    {tag : Tag} {payload : Option Value} (hv : f.value? v = some (.variant tag payload))
    (htag : tag.val = ref.index) (hd : R.setting.payloadLocals (.variant tag payload) fields = some declared) :
    Declares s b inner b' ∧ ∃ f', Leads R.ir ⟨f, callers, w⟩ (.go ⟨f', callers, w⟩) ∧ Stays b f f' ∧
      At R.function b' f' ∧ Models R.final inner f'.slots (declared ++ locals) := by
  match fields with
  | [] =>
    cases hd
    obtain ⟨rfl, rfl⟩ := yields_pure.1 hm
    exact ⟨.inl rfl, f, .refl _, .refl b' f, hat, hmodels⟩
  | [field] =>
    have hd : R.setting.payloadLocal field (.variant tag payload) = some declared := hd
    unfold Source.Setting.payloadLocal at hd
    split at hd
    · rename_i hkind
      cases hd
      have hm := (yields_bindPayload_other (by rw [hkind]; simp)).1 hm
      obtain ⟨rfl, rfl⟩ := yields_pure.1 hm
      exact ⟨.inl rfl, f, .refl _, .refl b' f, hat, hmodels⟩
    · rename_i name hkind
      obtain ⟨ty, ⟨t, ht, hty⟩, hm⟩ := (yields_bindPayload_bind hkind).1 hm
      obtain ⟨rfl, rfl⟩ := yields_pure.1 hm
      obtain ⟨t', ht', hd⟩ := bind_eq_some_iff.1 hd
      cases ht.symm.trans ht'
      obtain ⟨carried, hcarried, hd⟩ := bind_eq_some_iff.1 hd
      cases hd
      -- the value is taken out, and then stored
      have ho₁ := ho.define ty fun dest => .payload dest v ref.enum.text variant ref.index 0
      have hgrows₂ := (Extends.emit (ho₁.addSlot ty) _).grows.trans hgrows
      have hgrows₁ := (Extends.addSlot _ ty).grows.trans hgrows₂
      have he : Instr.effect? f w (.payload ⟨b.temps.size⟩ v ref.enum.text variant ref.index 0) =
          some (.define ⟨b.temps.size⟩ carried, w) := by
        simp [Instr.effect?, hv, htag, show payload = some carried from hcarried]
      obtain ⟨hl₁, hat₁⟩ := leads_define
        (i := fun dest => .payload dest v ref.enum.text variant ref.index 0) hat ho R.realizes hgrows₁ he
      have hslot := slotType_fresh hgrows₂
      obtain ⟨f₂, hl₂, hs₂, hat₂, hmodels₂⟩ := leads_declare callers w (hat₁.addSlot ty) (ho₁.addSlot ty)
        hmodels hgrows (if_pos rfl) hp.not_mem (t := t) (by rw [hty]; exact congrArg _ hslot.symm) name
      exact ⟨.inr ⟨name, rfl, by simp⟩, f₂, hl₁.trans hl₂,
        (Stays.setTemp (Nat.le_refl _) f carried).trans (hs₂ b), hat₂, hmodels₂⟩
    · cases hd
  | _ :: _ :: _ => cases hd

theorem tag_of_isMatch (href : R.program.resolutions.variants.get? p.id = some ref)
    (h : R.setting.isMatch p value = some true) :
    ∃ tag payload, value = .variant tag payload ∧ tag.val = ref.index := by
  unfold Source.Setting.isMatch at h
  rw [show R.setting.program.resolutions.variants.get? p.id = some ref from href] at h
  cases value with
  | variant tag payload =>
    obtain ⟨tag', htag', heq⟩ := map_eq_some_iff.1 h
    unfold VariantRef.tag? at htag'
    split at htag'
    · cases htag'
      obtain rfl := beq_iff_eq.1 heq
      exact ⟨_, payload, rfl, rfl⟩
    · cases htag'
  | _ => cases h

theorem leads_bindPattern (hat : At R.function b f) (ho : b.Open) (hp : Placed s b)
    (hmodels : Models R.final s f.slots locals) (hty : storage t = .ok ty)
    (hm : Yields (bindPattern v ty p s) R.ctx b inner b') (hgrows : Grows b' R.final) (hv : f.value? v = some value)
    (hmatch : R.setting.isMatch p value = some true) (hd : R.setting.bindings p t value = some declared) :
    Declares s b inner b' ∧ ∃ f', Leads R.ir ⟨f, callers, w⟩ (.go ⟨f', callers, w⟩) ∧ Stays b f f' ∧
      At R.function b' f' ∧ Models R.final inner f'.slots (declared ++ locals) := by
  have hm := yields_bindPattern.1 hm
  unfold Source.Setting.bindings at hd
  split at hm
  · rename_i name hkind href
    rw [hkind, show R.setting.program.resolutions.variants.get? p.id = none from href] at hd
    cases hd
    obtain ⟨rfl, rfl⟩ := hm
    have hslot := slotType_fresh ((Extends.emit (ho.addSlot ty) _).grows.trans hgrows)
    obtain ⟨f', hl, hs, hat', hmodels'⟩ := leads_declare callers w (hat.addSlot ty) (ho.addSlot ty) hmodels
      hgrows hv hp.not_mem (t := t) (by rw [hty, hslot]) name
    exact ⟨.inr ⟨name, rfl, by simp⟩, f', hl, hs b, hat', hmodels'⟩
  · rename_i enum variant fields ref hkind href
    rw [hkind, show R.setting.program.resolutions.variants.get? p.id = some ref from href] at hd
    obtain ⟨tag, payload, rfl, htag⟩ := tag_of_isMatch href hmatch
    exact leads_bindPayload hat ho hp hmodels hm hgrows hv htag hd
  · rename_i hnotBind hnotVariant
    obtain ⟨rfl, rfl⟩ := hm
    split at hd
    · exact absurd ‹_› (hnotBind _ ‹_›)
    · exact absurd ‹_› (hnotVariant _ _ _ _ ‹_›)
    · cases hd
      exact ⟨.inl rfl, f, .refl _, .refl b' f, hat, hmodels⟩

/-! ### Arms -/

theorem arm_of_lowerArms {ctx : Context} {scrutinee : Operand} {u : Unit} (hawait : Await b₀ b chosen)
    (hbody : ∀ p ∈ chosen, ∀ inner, Extending (p.2.body inner)) (hbase : Extends b₀ b)
    (hm : Yields (lowerArms scrutinee ty result join s chosen) ctx b u b') (hmem : (block, arm) ∈ chosen) :
    ∃ b₁ inner b₂ o b₃, Grows b b₁ ∧ Reserved b₁ block ∧
      Yields (bindPattern scrutinee ty arm.pattern s) ctx (b₁.switchTo block) inner b₂ ∧
        Yields (arm.body inner) ctx b₂ o b₃ ∧ Grows (b₃.endBranch result o join) b' := by
  induction chosen generalizing b with
  | nil => cases hmem
  | cons p rest ih =>
    obtain ⟨first, arm₁⟩ := p
    obtain ⟨inner, b₁, o, b₂, hbind, hvalue, hrest⟩ := yields_lowerArms_cons.1 hm
    have hnew := hawait.new _ mem_cons_self
    have hfirst := hawait.reserved _ mem_cons_self
    obtain ⟨harm, harms⟩ := forall_mem_cons.1 hbody
    obtain ⟨h₁, ho₁⟩ := extending_bindPattern _ _ _ _ hfirst.open_switchTo hbind
    obtain ⟨h₂, ho₂⟩ := harm inner ho₁ hvalue
    have h₃ := (h₁.trans h₂).trans (.endBranch ho₂ result o join)
    have hbase₃ := (hbase.switchTo hnew).trans h₃
    rcases mem_cons.1 hmem with heq | hmem
    · cases heq
      exact ⟨b, inner, b₁, o, b₂, .refl b, hfirst, hbind, hvalue,
        (extends_lowerArms hbase₃ (hawait.rest h₃) harms hrest).2.1⟩
    · obtain ⟨b₄, inner', b₅, o', b₆, hgrows, hfound⟩ := ih (hawait.rest h₃) harms hbase₃ hrest hmem
      exact ⟨b₄, inner', b₅, o', b₆, ((Grows.switchTo b first).trans h₃.grows).trans hgrows, hfound⟩

/-- The arm that is taken leads to the common block with its value. -/
theorem Follows.takenArm {p : Pattern × Eval Value} (harm : ArmTracks R arm p) (hty : storage t = .ok ty) {o : Operand}
    {b₁ b₂ b₃ : Builder} (hblock : Reserved b₁ block)
    (hbind : Yields (bindPattern v ty arm.pattern s) R.ctx (b₁.switchTo block) inner b₂)
    (hbody : Yields (arm.body inner) R.ctx b₂ o b₃) (hgrows : Grows (b₃.endBranch result o join) R.final)
    (hp : Placed s b₁) (hresult : Apart s result) (hlt : ∀ slot, result = some slot → slot.index < b₁.slots.size)
    (hle : b₀.temps.size ≤ b₁.temps.size) (hstart : Starts R.function block f)
    (hmodels : Models R.final s f.slots σ.locals) (hv : f.value? v = some value)
    (hmatch : R.setting.isMatch p.1 value = some true) (hd : R.setting.bindings p.1 t value = some declared)
    {r : Except Exit Value × State} (hr : Eval.within declared p.2 σ = some r) :
    Follows R s b₀ ⟨f, callers, σ.world⟩ (Joins R s result join) r := by
  have hat := hstart.at_switchTo hblock
  have ho := hblock.open_switchTo
  obtain ⟨h₂, ho₂⟩ := extending_bindPattern _ _ _ _ ho hbind
  obtain ⟨h₃, ho₃⟩ := harm.extending inner ho₂ hbody
  have hgrows₃ := (Extends.endBranch ho₃ result o join).grows.trans hgrows
  rw [harm.pattern] at hbind
  obtain ⟨hdeclares, f₁, hl, hs, hat₁, hmodels₁⟩ := leads_bindPattern hat ho (hp.switchTo block) hmodels hty
    hbind (h₃.grows.trans hgrows₃) hv hmatch hd
  refine Follows.after hl (hs.weaken hle)
    (Follows.within (Q := Joins R inner result join) hr hmodels.length_eq (fun r hr => ?_) ?_)
  · refine Follows.outer hdeclares.widens ?_
    refine (Tracks.later (harm.simulates inner) ho₂ (hdeclares.placed (hp.switchTo block) h₂.grows.slots_le)
      hbody hgrows₃ hat₁ hmodels₁ (Nat.le_trans hle h₂.grows.temps) hr).next fun a σ₁ f₂ _ ⟨_, harr⟩ => ?_
    exact .endBranch harr ho₃ (hdeclares.apart hresult hlt) hgrows
  · intro a σ₁ f₂ hjoins
    exact ⟨hjoins.starts, hdeclares.widens.models hjoins.models, hjoins.inSlot⟩

theorem ArmTracks.extendings (h : List.Forall₂ (ArmTracks R) arms cases) :
    ∀ arm ∈ arms, ∀ inner, Extending (arm.body inner) := by
  intro arm harm
  induction h with
  | nil => cases harm
  | cons hfirst _ ih =>
    rcases mem_cons.1 harm with rfl | harm
    · exact hfirst.extending
    · exact ih harm

theorem leads_discriminantOf {d : Operand} (harr : Arrives R s b v value σ f) (ho : b.Open) (hof : ty.holds value)
    (hm : Yields (discriminantOf v ty) R.ctx b (d, compared) b') (hgrows : Grows b' R.final) :
    ∃ f' dvalue, Leads R.ir ⟨f, callers, w⟩ (.go ⟨f', callers, w⟩) ∧ Stays b f f' ∧
      Arrives R s b' d dvalue σ f' ∧ Compares ty value compared dvalue := by
  rcases yields_discriminantOf.1 hm with ⟨enum, rfl, hd, rfl⟩ | ⟨hne, hd, rfl⟩
  · cases hd
    cases value with
    | variant tag payload =>
      have he : Instr.effect? f w (.tag ⟨b.temps.size⟩ v) =
          some (.define ⟨b.temps.size⟩ (.int (.ofInt .i32 tag.val)), w) := by
        simp [Instr.effect?, harr.value]
      obtain ⟨hl, hat⟩ := leads_define (i := fun dest => .tag dest v) harr.position ho R.realizes hgrows he
      exact ⟨_, _, hl, .setTemp (Nat.le_refl _) f _, ⟨hat, harr.models, if_pos rfl, by simp [Operand.Below]⟩,
        .inl ⟨enum, tag, payload, rfl, rfl, rfl, rfl⟩⟩
    | _ => cases hof
  · cases hd
    exact ⟨f, value, .refl _, .refl b' f, harr, .inr ⟨hne, rfl, rfl⟩⟩

/-- **A match is followed**: the code of the first arm whose pattern the value has runs,
and its value comes out. -/
theorem simulates_lowerSelect (id : NodeId) {scrutinee : Part} {e : Eval Value} (hext : Extending scrutinee.lower)
    (h : Simulates R s scrutinee.lower e) (harms : List.Forall₂ (ArmTracks R) arms cases) :
    Simulates R s (lowerSelect id scrutinee arms s)
      (R.setting.joined id (R.setting.select scrutinee.id (R.setting.operand scrutinee.id e) cases)) := by
  intro b v b' ho hp hm hgrows f callers σ r hat hmodels hr
  obtain ⟨ty, o, b₁, d, compared, b₂, result, b₃, chosen, b₄, u, b₅, hty, hm₁, hm₂, hm₃, hm₄, hm₅, rfl, rfl⟩ :=
    yields_lowerSelect.1 hm
  have hbodies := ArmTracks.extendings harms
  obtain ⟨h₁, ho₁⟩ := hext ho hm₁
  obtain ⟨h₂, ho₂⟩ := extending_discriminantOf _ _ ho₁ hm₂
  obtain ⟨h₃, ho₃⟩ := Extending.resultSlot id ho₂ hm₃
  obtain ⟨h₄, hawait, hmem⟩ := await_lowerTests ho₃.addBlock hm₄
  have hchosen := fun p hp => hbodies p.2 (hmem p hp)
  obtain ⟨h₅, hgrows₅, hkeep⟩ := extends_lowerArms h₄ hawait hchosen hm₅
  have hjoin := hkeep _ ((Reserved.addBlock ho₃).kept h₄) (hawait.not_mem (Reserved.addBlock ho₃).lt)
  -- everything that is written on the way is in the finished function
  have hgrows₄ : Grows b₅ R.final :=
    ((Grows.switchTo _ _).trans (hjoin.open_switchTo.loadResult result).1.grows).trans hgrows
  have hgrows₃ := hgrows₅.trans hgrows₄
  have hgrows₂ := (h₃.grows.trans (Grows.addBlock b₃)).trans (h₄.grows.trans hgrows₃)
  have htemps₂ := Nat.le_trans h₁.grows.temps h₂.grows.temps
  have htemps₃ := Nat.le_trans htemps₂ h₃.grows.temps
  have htemps₄ : b.temps.size ≤ b₄.temps.size := Nat.le_trans htemps₃ h₄.grows.temps
  have htemps₅ := Nat.le_trans htemps₄ hgrows₅.temps
  have hp₂ := hp.grows (Nat.le_trans h₁.grows.slots_le h₂.grows.slots_le)
  obtain ⟨t, ht, hstorage⟩ := hty
  refine .joined hm₃ hr fun r hr _ => ?_
  obtain ⟨t', ht', hr⟩ := expect_bind_eq_some.1 hr
  cases ht.symm.trans ht'
  refine Follows.bind (fun r hr => h.operand scrutinee.id ho hp hm₁ (h₂.grows.trans hgrows₂) hat
    hmodels hr) hr fun value σ₁ f₁ _ ⟨harr₁, hof⟩ hr₁ => ?_
  replace hof : ty.holds value := Context.Stores.holds ⟨t, ht, hstorage⟩ hof
  obtain ⟨p, hfirst, hr₁⟩ := expect_bind_eq_some.1 hr₁
  obtain ⟨declared, hdeclared, hr₁⟩ := expect_bind_eq_some.1 hr₁
  -- to the tests, and to the block of the arm
  obtain ⟨f₂, dvalue, hl₂, hs₂, harr₂, hcompares⟩ := leads_discriminantOf harr₁ ho₁ hof hm₂ hgrows₂
  obtain ⟨-, hp₃, hat₃, hresult, hlt⟩ := resultSlot_ready ho₂ hp₂ harr₂.position hm₃
  obtain ⟨i, arm, hplace, harm, hmatch, hbefore⟩ := ArmTracks.first harms hfirst
  obtain ⟨block, f₃, hplaced, hl₃, hs₃, hslots₃, hstart⟩ := leads_lowerTests callers σ₁.world hof hcompares
    ho₃.addBlock hm₄ hgrows₃ hat₃.addBlock harr₂.value (harr₂.below.mono h₃.grows.temps) hplace hmatch hbefore
  have hmem := mem_of_getElem? hplaced
  rw [harm.pattern] at hmatch
  -- the code of the arm
  obtain ⟨b₆, inner, b₇, o', b₈, hgrows₆, hblock, hbind, hbody, hgrows₇⟩ := arm_of_lowerArms hawait hchosen h₄
    hm₅ hmem
  have hle₃ : b₁.temps.size ≤ b₃.addBlock.temps.size := Nat.le_trans h₂.grows.temps h₃.grows.temps
  have hslots : b₃.slots.size ≤ b₆.slots.size := Nat.le_trans h₄.grows.slots_le hgrows₆.slots_le
  have hs : Stays b₁ f₁ f₃ := hs₂.trans (hs₃.weaken hle₃)
  have hmodels₃ : Models R.final s f₃.slots σ₁.locals := by
    rw [hslots₃]
    exact harr₂.models
  refine Follows.after (hl₂.trans hl₃) (hs.weaken h₁.grows.temps) ?_
  refine (Follows.takenArm harm hstorage hblock hbind hbody (hgrows₇.trans hgrows₄) (hp₃.grows hslots) hresult
    (fun slot hslot => Nat.lt_of_lt_of_le (hlt slot hslot) hslots) (Nat.le_trans htemps₄ hgrows₆.temps)
    hstart hmodels₃ ((hs.value? harr₁.below).trans harr₁.value) hmatch hdeclared hr₁).next
    fun a σ₄ f₄ _ hjoins => ?_
  exact (Follows.resume hjoins hjoin hgrows htemps₅).imp (Nat.le_refl _) fun _ _ _ _ h => h.1

end Lowering
end Keel
