/-
# Matches decide

In an accepted program the arms of a match decide about every value of the type that is
matched: one of them takes it, no two of them take it unless the second one takes all, and the
tests that are built from them lead to the block of the first one that does.

Two things have to be left out.  A range may go beyond its kind of number, and then two
literals can stand for the same number.  And an instance of a generic enum may have no signature
while a body is checked; a match on it is not checked at all, and none of its patterns is
known to be a variant.
-/
import Keel.Proofs.Lowering.Accepted
import Keel.Proofs.Lowering.Simulation.Matches
import Keel.Proofs.Typing.Accounted

namespace Keel

open List

/-! ### Values of a type -/

/-- The values of a type that can be matched: each number of the kind or range, and each
variant with whatever it carries. -/
inductive Signatures.Inhabits (sigs : Signatures) : Ty → Value → Prop
  | bool (value : Bool) : sigs.Inhabits .bool (.bool value)
  | str (text : String) : sigs.Inhabits .str (.str text)
  | int (n : Number) : sigs.Inhabits (.int n.kind) (.int n)
  | range (n : Number) {low high : Int} (hlow : low ≤ n.value) (hhigh : n.value ≤ high) :
    sigs.Inhabits (.range n.kind low high) (.int n)
  | variant {name : QualName} {sig : EnumSig} (tag : Tag) (payload : Option Value)
    (hsig : sigs.enums.get? name = some sig) (htag : tag.val < sig.variants.length) :
    sigs.Inhabits (.enum name) (.variant tag payload)

/-- A match on this type is checked: a range lies within its kind, an enum has no more variants
than there are tags, and an instance of a generic enum is told apart from one that was not known
by a pattern that is a variant. -/
def CheckedProgram.Matches (p : CheckedProgram) (arms : List Arm) : Ty → Prop
  | .bool | .str | .int _ => True
  | .range kind low high => kind.min ≤ low ∧ high ≤ kind.max
  | .enum name => ∃ sig, p.signatures.enums.get? name = some sig ∧ sig.variants.length ≤ 2147483648 ∧
    (sig.origin = none ∨ ∃ arm ∈ arms, p.resolutions.variants.get? arm.pattern.id ≠ none)
  | _ => False

/-- Does the value have what is taken? -/
def Taken.has : Taken → Value → Bool
  | .all, _ => true
  | .variant index, .variant tag _ => index == tag.val
  | .int value, .int n => Number.ofInt n.kind value == n
  | .bool value, .bool b => value == b
  | .str value, .str text => value == text
  | _, _ => false

/-- The value is one of what is looked at. -/
def Typing.Scrutinee.Holds : Typing.Scrutinee → Value → Prop
  | .bool, .bool _ | .str, .str _ => True
  | .int (.int kind), .int n => n.kind = kind
  | .int (.range kind low high), .int n =>
    n.kind = kind ∧ low ≤ n.value ∧ n.value ≤ high ∧ kind.min ≤ low ∧ high ≤ kind.max
  | .enum sig, .variant tag _ => tag.val < sig.variants.length ∧ sig.variants.length ≤ 2147483648
  | _, _ => False

section Taken

open Typing

variable {c : Source.Setting} {k : Scrutinee} {value : Value}

theorem isMatch_of_taken {p : Pattern} {taken : Taken}
    (htaken : c.program.resolutions.taken? p = some taken) (hsuits : k.Suits taken) (hk : k.Holds value) :
    c.isMatch p value = some (taken.has value) := by
  unfold Resolutions.taken? at htaken
  unfold Source.Setting.isMatch
  cases href : c.program.resolutions.variants.get? p.id with
  | some ref =>
    rw [href] at htaken
    cases htaken
    cases k with
    | enum sig =>
      cases value with
      | variant tag payload =>
        have hlt : ref.index < 2147483648 := Nat.lt_of_lt_of_le hsuits hk.2
        have htag : ref.tag? = some ⟨ref.index, hlt⟩ := dif_pos hlt
        have hbeq : ((⟨ref.index, hlt⟩ : Tag) == tag) = (ref.index == tag.val) := by
          rw [Bool.eq_iff_iff, beq_iff_eq, beq_iff_eq, Fin.ext_iff]
        simp only [htag, Option.map_some, hbeq, Taken.has]
      | _ => cases hk
    | _ => cases hsuits
  | none =>
    rw [href] at htaken
    cases hkind : p.kind with
    | wildcard | bind =>
      rw [hkind] at htaken
      cases htaken
      rfl
    | variant =>
      rw [hkind] at htaken
      cases htaken
    | int =>
      rw [hkind] at htaken
      cases htaken
      cases k with
      | int ty =>
        cases value with
        | int => rfl
        | _ => cases ty <;> cases hk
      | _ => cases hsuits
    | bool =>
      rw [hkind] at htaken
      cases htaken
      cases k with
      | bool =>
        cases value with
        | bool => rfl
        | _ => cases hk
      | _ => cases hsuits
    | str =>
      rw [hkind] at htaken
      cases htaken
      cases k with
      | str =>
        cases value with
        | str => rfl
        | _ => cases hk
      | _ => cases hsuits

theorem exists_taken {takens : List Taken} (h : k.Exhausted (· ∈ takens)) (hk : k.Holds value) :
    ∃ taken ∈ takens, taken.has value = true := by
  rcases h with hall | h
  · exact ⟨.all, hall, rfl⟩
  · cases k with
    | enum sig =>
      cases value with
      | variant tag payload => exact ⟨.variant tag.val, h tag.val hk.1, by simp [Taken.has]⟩
      | _ => cases hk
    | bool =>
      cases value with
      | bool b => exact ⟨.bool b, h b, by simp [Taken.has]⟩
      | _ => cases hk
    | int ty =>
      cases ty with
      | range kind low high =>
        cases value with
        | int n =>
          refine ⟨.int n.value, h n.value hk.2.1 hk.2.2.1, ?_⟩
          simp [Taken.has, Number.ofInt_value]
        | _ => cases hk
      | _ => cases h
    | str => cases h
    | invalid => cases value <;> cases hk

theorem value_of_ofInt {n : Number} {value : Int} (h : n.kind.contains value = true)
    (heq : Number.ofInt n.kind value = n) : value = n.value := by
  have := congrArg Number.value heq
  rwa [show (Number.ofInt n.kind value).value = value from IntKind.wrap_of_contains h] at this

/-- A value is taken in one way only, unless it is by what takes all. -/
theorem taken_unique {a b : Taken} (hk : k.Holds value) (hsa : k.Suits a) (hsb : k.Suits b)
    (ha : a ≠ .all) (hb : b ≠ .all) (hva : a.has value = true) (hvb : b.has value = true) : a = b := by
  cases k with
  | enum sig =>
    cases value with
    | variant tag payload => cases a <;> cases b <;> simp_all [Taken.has, Scrutinee.Suits]
    | _ => cases hk
  | bool =>
    cases value with
    | bool value => cases a <;> cases b <;> simp_all [Taken.has, Scrutinee.Suits]
    | _ => cases hk
  | str =>
    cases value with
    | str value => cases a <;> cases b <;> simp_all [Taken.has, Scrutinee.Suits]
    | _ => cases hk
  | int ty =>
    cases value with
    | int n =>
      have hcontains : ∀ v, ty.admits v = true → n.kind.contains v = true := by
        intro v hv
        cases ty with
        | int kind => exact (show n.kind = kind from hk) ▸ hv
        | range kind low high =>
          obtain ⟨rfl, -, -, hmin, hmax⟩ := hk
          simp only [Ty.admits, Bool.and_eq_true, decide_eq_true_eq] at hv
          simp only [IntKind.contains, Bool.and_eq_true, decide_eq_true_eq]
          omega
        | _ => cases hk
      cases a with
      | int v =>
        cases b with
        | int v' =>
          have h := value_of_ofInt (hcontains v hsa) (beq_iff_eq.1 hva)
          have h' := value_of_ofInt (hcontains v' hsb) (beq_iff_eq.1 hvb)
          rw [h, h']
        | all => exact absurd rfl hb
        | _ => cases hsb
      | all => exact absurd rfl ha
      | _ => cases hsa
    | _ => cases ty <;> cases hk
  | invalid => cases value <;> cases hk

end Taken

/-! ### Arms -/

/-- The arms decide about the value: each of them is compared with it, one takes it, none comes
after one that takes all, and no two take it unless the second takes all. -/
structure Source.Setting.Decides (c : Source.Setting) (arms : List Arm) (value : Value) : Prop where
  compared : ∀ arm ∈ arms, ∃ matched, c.isMatch arm.pattern value = some matched
  taken : ∃ arm ∈ arms, c.isMatch arm.pattern value = some true
  apart : arms.Pairwise fun first second =>
    c.program.resolutions.taken? first.pattern ≠ some .all ∧
      (c.isMatch first.pattern value = some true → c.isMatch second.pattern value = some true →
        c.program.resolutions.taken? second.pattern = some .all)

section Decides

open Typing

variable {c : Source.Setting} {k : Scrutinee} {value : Value} {t : State} {arms : List Arm}

theorem decides_of_chain (ht : c.program.resolutions = t.resolutions) {takens : List Taken}
    {cov : Coverage} (hchain : Chain t k {} (arms.map (·.pattern)) takens cov)
    (hmissing : k.missing cov = none) (hk : k.Holds value) : c.Decides arms value := by
  have hmem : ∀ arm ∈ arms, ∃ taken ∈ takens, c.program.resolutions.taken? arm.pattern = some taken ∧
      c.isMatch arm.pattern value = some (taken.has value) := by
    intro arm harm
    have hfound : t.resolutions.taken? arm.pattern ∈ takens.map some := by
      rw [← hchain.taken]
      exact mem_map_of_mem (mem_map_of_mem harm)
    obtain ⟨taken, htaken, heq⟩ := mem_map.1 hfound
    have heq' : c.program.resolutions.taken? arm.pattern = some taken := by rw [ht, heq]
    exact ⟨taken, htaken, heq', isMatch_of_taken heq' (hchain.suits taken htaken) hk⟩
  refine ⟨fun arm harm => ?_, ?_, ?_⟩
  · obtain ⟨taken, -, -, hmatch⟩ := hmem arm harm
    exact ⟨_, hmatch⟩
  · have hexhausted : k.Exhausted (· ∈ takens) := by
      have hnoted : cov.takes = (· ∈ takens) := funext fun other => propext <| by
        rw [hchain.noted]
        cases other <;> simp [Coverage.takes]
      exact hnoted ▸ Scrutinee.exhausted_of_missing hmissing
    obtain ⟨taken, htaken, hhas⟩ := exists_taken hexhausted hk
    have hfound : some taken ∈ (arms.map (·.pattern)).map t.resolutions.taken? := by
      rw [hchain.taken]
      exact mem_map_of_mem htaken
    obtain ⟨p, hp, heq⟩ := mem_map.1 hfound
    obtain ⟨arm, harm, rfl⟩ := mem_map.1 hp
    refine ⟨arm, harm, ?_⟩
    rw [isMatch_of_taken (by rw [ht, heq]) (hchain.suits taken htaken) hk, hhas]
  · have hpairs : ((arms.map (·.pattern)).map t.resolutions.taken?).Pairwise
        fun first second => first ≠ some .all ∧ first ≠ second := by
      rw [hchain.taken, pairwise_map]
      exact hchain.apart.imp fun h => ⟨fun heq => h.1 (Option.some.inj heq), fun heq => h.2 (Option.some.inj heq)⟩
    rw [pairwise_map, pairwise_map] at hpairs
    refine hpairs.imp_of_mem fun {first second} hfirst hsecond h => ?_
    obtain ⟨a, ha, hta, hma⟩ := hmem first hfirst
    obtain ⟨b, hb, htb, hmb⟩ := hmem second hsecond
    rw [← ht, hta, htb] at h
    rw [hta, htb, hma, hmb]
    refine ⟨h.1, fun hva hvb => ?_⟩
    by_contra hnot
    refine h.2 (congrArg some (taken_unique hk (hchain.suits a ha) (hchain.suits b hb)
      (fun heq => h.1 (congrArg some heq)) (fun heq => hnot (congrArg some heq)) ?_ ?_))
    · exact Option.some.inj hva
    · exact Option.some.inj hvb

theorem holds_of_inhabits {p : CheckedProgram} {ty : Ty} (ht : p = t.program)
    (hk : ScrutineeOf t ty k) (hmatches : p.Matches arms ty) (hv : p.signatures.Inhabits ty value)
    (hvalid : k = .invalid → ∀ arm ∈ arms, p.resolutions.variants.get? arm.pattern.id = none) : k.Holds value := by
  subst ht
  cases hv with
  | bool | str => obtain rfl := hk; trivial
  | int n => obtain rfl := hk; rfl
  | range n hlow hhigh => obtain rfl := hk; exact ⟨rfl, hlow, hhigh, hmatches⟩
  | @variant name sig tag payload hsig htag =>
    obtain ⟨sig', hsig', hle, horigin⟩ := hmatches
    cases hsig.symm.trans hsig'
    rcases hk with ⟨sig'', rfl, hsig''⟩ | ⟨rfl, hnone⟩
    · cases hsig.symm.trans hsig''
      exact ⟨htag, hle⟩
    · rcases horigin with horigin | ⟨arm, harm, hvariant⟩
      · exact absurd horigin (hnone sig hsig)
      · exact absurd (hvalid rfl arm harm) hvariant

theorem decides_of_decided {p : CheckedProgram} {scrutinee : Expr} {ty : Ty} (ht : p = t.program)
    (hc : c.program = p) (hd : Decided t scrutinee (arms.map (·.pattern)))
    (hty : p.resolutions.exprTypes.get? scrutinee.id = some ty) (hmatches : p.Matches arms ty)
    (hv : p.signatures.Inhabits ty value) : c.Decides arms value := by
  obtain ⟨ty', k, cov, hty', hk, harms, hmissing⟩ := hd
  have hresolutions : p.resolutions = t.resolutions := by rw [ht]; rfl
  rw [hresolutions, hty'] at hty
  cases hty
  have hholds := holds_of_inhabits ht hk hmatches hv fun hinvalid arm harm => by
    subst hinvalid
    rw [hresolutions]
    exact harms _ (mem_map_of_mem harm)
  have hvalid (h : ∃ takens, Chain t k {} (arms.map (·.pattern)) takens cov) : c.Decides arms value := by
    obtain ⟨takens, hchain⟩ := h
    exact decides_of_chain (by rw [hc, hresolutions]) hchain hmissing hholds
  cases k with
  | invalid => cases value <;> cases hholds
  | _ => exact hvalid harms

end Decides

namespace Lowering

open Ir (Storage Frame BlockId Leads TempId)

variable {R : Running} {arms : List Arm} {ty : Ty} {value : Value} {join : BlockId}
  {chosen : List (BlockId × ArmPart)} {f : Frame} {callers : List (Frame × TempId)} {w : World}

/-- The machine is about to run the tests of a match on a value; `chosen` are the blocks of the
arms, and `join` is where it goes on if no test succeeds. -/
def AtTests (R : Running) (arms : List Arm) (ty : Ty) (value : Value) (join : BlockId)
    (chosen : List (BlockId × ArmPart)) (f : Frame) : Prop :=
  ∃ st compared v d b b', storage ty = .ok st ∧ b.Open ∧ join.index < b.blocks.size ∧
    Yields (lowerTests v compared st join (armParts arms)) R.ctx b chosen b' ∧ Grows b' R.final ∧
      At R.function b f ∧ f.value? v = some d ∧ v.Below b.temps.size ∧ Compares st value compared d

/-- The machine gets to the block of the first arm that takes the value. -/
def ReachesFirst (R : Running) (arms : List Arm) (value : Value) (join : BlockId)
    (chosen : List (BlockId × ArmPart)) (f : Frame) (callers : List (Frame × TempId)) (w : World) : Prop :=
  ∃ i part block f', (armParts arms)[i]? = some part ∧
    R.setting.isMatch part.pattern value = some true ∧
      (∀ other ∈ (armParts arms).take i, R.setting.isMatch other.pattern value = some false) ∧
        chosen[i]? = some (block, part) ∧ block ≠ join ∧
          Leads R.ir ⟨f, callers, w⟩ (.go ⟨f', callers, w⟩) ∧ Starts R.function block f'

theorem patterns_armParts (arms : List Arm) : (armParts arms).map (·.pattern) = arms.map (·.pattern) := by
  induction arms with
  | nil => rfl
  | cons arm rest ih =>
    obtain ⟨pattern, body, span⟩ := arm
    simp [armParts, ih]

theorem holds_of_storage {sigs : Signatures} {st : Storage} (h : storage ty = .ok st)
    (hv : sigs.Inhabits ty value) : st.holds value := by
  cases hv <;> cases h <;> simp [Storage.holds]

theorem exists_first {α : Type} {test : α → Option Bool} {l : List α}
    (hall : ∀ a ∈ l, ∃ found, test a = some found) (hsome : ∃ a ∈ l, test a = some true) :
    ∃ i a, l[i]? = some a ∧ test a = some true ∧ ∀ other ∈ l.take i, test other = some false := by
  induction l with
  | nil => simp at hsome
  | cons a rest ih =>
    obtain ⟨⟨found, hfound⟩, hrest⟩ := forall_mem_cons.1 hall
    cases found with
    | true => exact ⟨0, a, rfl, hfound, by simp⟩
    | false =>
      have hsome' : ∃ a ∈ rest, test a = some true := by
        obtain ⟨b, hb, htest⟩ := hsome
        rcases mem_cons.1 hb with rfl | hb
        · rw [hfound] at htest
          cases htest
        · exact ⟨b, hb, htest⟩
      obtain ⟨i, b, hb, htest, hbefore⟩ := ih hrest hsome'
      refine ⟨i + 1, b, hb, htest, ?_⟩
      rw [take_succ_cons]
      exact forall_mem_cons.2 ⟨hfound, hbefore⟩

/-- Where the arms decide, the tests lead to the block of the first one that takes the value. -/
theorem reaches_of_decides {sigs : Signatures} (h : R.setting.Decides arms value)
    (hv : sigs.Inhabits ty value) (hat : AtTests R arms ty value join chosen f) :
    ReachesFirst R arms value join chosen f callers w := by
  obtain ⟨st, compared, v, d, b, b', hst, ho, hjoin, hm, hgrows, hat, hvalue, hbelow, hd⟩ := hat
  have hparts (q : Pattern → Prop) (hq : ∀ arm ∈ arms, q arm.pattern) :
      ∀ part ∈ armParts arms, q part.pattern := fun part hpart => by
    have hmem : part.pattern ∈ arms.map (·.pattern) := by
      rw [← patterns_armParts]
      exact mem_map_of_mem hpart
    obtain ⟨arm, harm, heq⟩ := mem_map.1 hmem
    exact heq ▸ hq arm harm
  have hsome : ∃ part ∈ armParts arms, R.setting.isMatch part.pattern value = some true := by
    obtain ⟨arm, harm, hmatch⟩ := h.taken
    have hmem : arm.pattern ∈ (armParts arms).map (·.pattern) := by
      rw [patterns_armParts]
      exact mem_map_of_mem harm
    obtain ⟨part, hpart, heq⟩ := mem_map.1 hmem
    exact ⟨part, hpart, heq ▸ hmatch⟩
  obtain ⟨i, part, hpart, hmatch, hbefore⟩ := exists_first
    (hparts (fun p => ∃ matched, R.setting.isMatch p value = some matched) h.compared) hsome
  obtain ⟨block, f', hblock, hleads, -, -, hstarts⟩ := leads_lowerTests callers w
    (holds_of_storage hst hv) hd ho hm hgrows hat hvalue hbelow hpart hmatch hbefore
  refine ⟨i, part, block, f', hpart, hmatch, hbefore, hblock, ?_, hleads, hstarts⟩
  rintro rfl
  exact (await_lowerTests ho hm).2.1.not_mem hjoin (mem_map_of_mem (mem_of_getElem? hblock))

/-- **Matches decide.**  In an accepted program, the arms of a match on a type decide about each
value of it, and the tests lead to the first arm that takes the value.  And what a match on
an enum is said to leave out is what no arm is written for. -/
theorem decides_of_check {files : List SourceFile} {p : CheckedProgram}
    (h : SourceFile.check files = .ok p) :
    (∀ name g id scrutinee arms span ty value, p.functions.get? name = some g →
      Node.expr ⟨id, .select scrutinee arms, span⟩ ∈ g.decl.body.nodes →
        p.resolutions.exprTypes.get? scrutinee.id = some ty → p.Matches arms ty →
          p.signatures.Inhabits ty value →
      (∀ call limit, (⟨p, call, limit⟩ : Source.Setting).Decides arms value) ∧
        ∀ (R : Running) join chosen f callers w, R.program = p → AtTests R arms ty value join chosen f →
          ReachesFirst R arms value join chosen f callers w) ∧
    ∀ d f sig ty expected arms s,
      (Typing.Scrutinee.enum sig).missing (Typing.checkArms f (.enum sig) ty expected arms {} d s).1.2 =
        if arms.any (fun arm => Typing.takesAll sig arm.pattern) ∨ Typing.uncovered d f sig arms = []
        then none
        else some (.missingVariants (Typing.uncovered d f sig arms)) := by
  refine ⟨?_, fun d f sig ty expected arms s => Typing.missing_checkArms ty expected arms s⟩
  intro name g id scrutinee arms span ty value hg hnode hty hmatches hv
  obtain ⟨c, n, hmakes⟩ := Typing.exists_makes_of_check h
  have hnodes := hmakes.accounted hg
  have hprogram := hmakes.program
  generalize c.afterBodies n = t at hprogram hnodes
  have hresolutions : p.resolutions = t.resolutions := by rw [hprogram]; rfl
  have hdecided : Typing.Decided t scrutinee (arms.map (·.pattern)) :=
    (hnodes _ hnode).resolve_left fun hnone => by
      rw [hresolutions, hnone] at hty
      cases hty
  have hdecides (setting : Source.Setting) (hs : setting.program = p) : setting.Decides arms value :=
    decides_of_decided hprogram hs hdecided hty hmatches hv
  refine ⟨fun call limit => hdecides _ rfl, fun R join chosen f callers w hR hat => ?_⟩
  exact reaches_of_decides (hdecides R.setting hR) hv hat

/-- A match on a variant with a value, and one on that value, which is of a small range. -/
def turned : SourceFile :=
  ⟨⟨"app/main.kl"⟩, "enum Turn \x7b Left, Right(u8[0..=2]) \x7d
fn steps(turn: Turn) -> i64 \x7b
  match turn \x7b
    Turn.Left => 1,
    Turn.Right(n) => match n \x7b 2 => 4, 0 => 2, 1 => 3 \x7d,
  \x7d
\x7d"⟩

/-- Is the node a match on an enum, with these arms and this signature? -/
def looksAtEnum (p : CheckedProgram) (test : List Arm → Option EnumSig → Bool) : Node → Bool
  | .expr ⟨_, .select scrutinee arms, _⟩ =>
    match p.resolutions.exprTypes.get? scrutinee.id with
    | some (.enum name) => test arms (p.signatures.enums.get? name)
    | _ => false
  | _ => false

theorem exists_of_looksAtEnum {p : CheckedProgram} {test : List Arm → Option EnumSig → Bool}
    {nodes : List Node} (h : nodes.any (looksAtEnum p test) = true) :
    ∃ id scrutinee arms span name, Node.expr ⟨id, .select scrutinee arms, span⟩ ∈ nodes ∧
      p.resolutions.exprTypes.get? scrutinee.id = some (.enum name) ∧
        test arms (p.signatures.enums.get? name) = true := by
  obtain ⟨node, hnode, htest⟩ := any_eq_true.1 h
  unfold looksAtEnum at htest
  split at htest
  · split at htest
    · exact ⟨_, _, _, _, _, hnode, ‹_›, htest⟩
    · cases htest
  · cases htest

set_option maxRecDepth 10000 in
theorem decides_of_check_turned :
    ∃ p g id scrutinee arms span name sig, SourceFile.check [turned] = .ok p ∧
      p.functions.get? ⟨⟨"app", []⟩, "steps"⟩ = some g ∧
        Node.expr ⟨id, .select scrutinee arms, span⟩ ∈ g.decl.body.nodes ∧
          p.resolutions.exprTypes.get? scrutinee.id = some (.enum name) ∧
            p.signatures.enums.get? name = some sig ∧ sig.variants.length = 2 ∧
      ∀ (tag : Tag) payload, tag.val < 2 → ∀ call limit,
        (⟨p, call, limit⟩ : Source.Setting).Decides arms (.variant tag payload) := by
  obtain ⟨p, ir, haccepted, htest⟩ := accepted_of_chars turned _ _
    (fun p _ => (p.functions.get? ⟨⟨"app", []⟩, "steps"⟩).any fun g => g.decl.body.nodes.any <|
      looksAtEnum p fun _ sig? => sig?.any fun sig => sig.variants.length == 2 && sig.origin.isNone)
    rfl rfl (by decide +kernel)
  obtain ⟨g, hg, htest⟩ := (Option.any_eq_true _ _).1 htest
  obtain ⟨id, scrutinee, arms, span, name, hnode, hty, htest⟩ := exists_of_looksAtEnum htest
  obtain ⟨sig, hsig, htest⟩ := (Option.any_eq_true _ _).1 htest
  obtain ⟨hlength, horigin⟩ := Bool.and_eq_true_iff.1 htest
  replace hlength : sig.variants.length = 2 := by simpa using hlength
  replace horigin : sig.origin = none := by simpa using horigin
  refine ⟨p, g, id, scrutinee, arms, span, name, sig, haccepted.checked, hg, hnode, hty, hsig, hlength, ?_⟩
  intro tag payload htag
  exact ((decides_of_check haccepted.checked).1 _ g id scrutinee arms span _ _ hg hnode hty
    ⟨sig, hsig, by omega, .inl horigin⟩ (.variant tag payload hsig (by omega))).1

/-- A type parameter with the name of a builtin type: `Opt[i32]` then passes for a type that
is not known yet, and so does every type that is built from it. -/
def unknownInstance : SourceFile :=
  ⟨⟨"app/main.kl"⟩, "enum Opt[T] \x7b S(T), N \x7d
enum Wrap[T] \x7b A(T), B \x7d
fn f[i32](x: Opt[i32]) -> i64 \x7b 1 \x7d
fn main() -> i64 \x7b
  let a = f(Opt.S(true));
  let w: Wrap[Opt[i32]];
  match w \x7b \x7d;
  a
\x7d"⟩

set_option maxRecDepth 10000 in
/-- **A match on an enum without a signature is not checked**: this one has no arm. -/
theorem not_decides_unknownInstance :
    ∃ p g id scrutinee span name, SourceFile.check [unknownInstance] = .ok p ∧
      p.functions.get? ⟨⟨"app", []⟩, "main"⟩ = some g ∧
        Node.expr ⟨id, .select scrutinee [], span⟩ ∈ g.decl.body.nodes ∧
          p.resolutions.exprTypes.get? scrutinee.id = some (.enum name) ∧
            ∀ (c : Source.Setting) value, ¬ c.Decides [] value := by
  obtain ⟨p, ir, haccepted, htest⟩ := accepted_of_chars unknownInstance _ _
    (fun p _ => (p.functions.get? ⟨⟨"app", []⟩, "main"⟩).any fun g => g.decl.body.nodes.any <|
      looksAtEnum p fun arms _ => arms.isEmpty) rfl rfl (by decide +kernel)
  obtain ⟨g, hg, htest⟩ := (Option.any_eq_true _ _).1 htest
  obtain ⟨id, scrutinee, arms, span, name, hnode, hty, htest⟩ := exists_of_looksAtEnum htest
  obtain rfl := isEmpty_iff.1 htest
  refine ⟨p, g, id, scrutinee, span, name, haccepted.checked, hg, hnode, hty, fun c value h => ?_⟩
  obtain ⟨arm, harm, -⟩ := h.taken
  cases harm

end Lowering

end Keel
