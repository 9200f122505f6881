/-
# Lowering keeps what a program does

A call that ends in the source ends in the same way in the lowered program: with the same
value or the same failure, and with the same events.  Calls inside of it are followed by
induction on the limit of the run, so that each call is one of a shorter run.

Functions and structs are filed under the written forms of their names.  So the names have
to be told apart by these forms: otherwise a call may enter another function.
-/
import Keel.Proofs.Lowering.Accepted
import Keel.Proofs.Lowering.Pruning
import Keel.Proofs.Lowering.Simulation.Statements

namespace Keel.Lowering

open List Option

open Ir (Storage Operand TempId Frame Machine Leads)
open Source (Local State Exit)

/-! ### Finished functions -/

variable {g : Ir.Function} {structs : Std.TreeMap String Ir.StructLayout} {name : QualName} {decl : FunctionDef}
  {sig : FunctionSig} {args : List Value} {r : Except Exit Value × State} {result : Except Failure Value}
  {w' : World}

theorem of_verify (h : g.verify = .ok ()) : (∃ block, g.blocks.head? = some block) ∧
      ∀ block ∈ g.blocks, ∀ target ∈ block.terminator.targets, ∃ next, g.block? target = some next := by
  obtain ⟨hsome, -, htargets⟩ := Ir.Function.verify_eq_ok.1 h
  refine ⟨⟨_, List.head?_eq_some_head hsome⟩, fun block hblock target htarget => ?_⟩
  obtain ⟨next, hnext, hid⟩ := mem_map.1 (htargets block hblock target htarget)
  exact isSome_iff_exists.1 (List.find?_isSome.2 ⟨next, hnext, by simp [hid]⟩)

theorem realizes_of_lowered {program : CheckedProgram} {b : Builder} (h : Lowered program structs name decl sig b g) :
    Realizes g b := by
  refine ⟨fun id block hblock => ?_, fun id block hblock => ?_⟩
  · have hid : block.id = id := by simpa using List.find?_some hblock
    rw [← hid]
    exact ((finished_of_finish h.blocks).pending_of_mem (mem_of_find?_eq_some hblock)).2
  · exact (of_verify h.verified).2 block (mem_of_find?_eq_some hblock)

/-! ### Parameters -/

structure Passes (args : List Value) (p : String × Storage × Nat) (l : Local) : Prop where
  name : l.name = p.1
  ty : storage l.ty = .ok p.2.1
  value : ∃ value, l.value = some value ∧ args[p.2.2]? = some value

theorem passes_parameters (all : List Value) (names : List String) (start : Nat) {sigs : List ParamSig}
    {params : List Storage} (h : List.Forall₂ (fun p ty => storage p.ty = .ok ty) sigs params)
    (hlength : args.length = sigs.length) (hargs : ∀ i, args[i]? = all[start + i]?) :
    List.Forall₂ (Passes all) (names.zip (params.zipIdx start))
      (List.zipWith (fun name (ty, value) => (⟨name, ty, some value⟩ : Local)) names
        ((sigs.map (·.ty)).zip args)) := by
  induction h generalizing names args start with
  | nil => simp
  | @cons sig ty sigs params hty _ ih =>
    cases args with
    | nil => cases hlength
    | cons arg args =>
      cases names with
      | nil => exact .nil
      | cons name names =>
        refine .cons ⟨rfl, hty, arg, rfl, ?_⟩ (ih names (start + 1) (Nat.succ.inj hlength) fun i => ?_)
        · exact (hargs 0).symm
        · have := hargs (i + 1)
          rwa [List.getElem?_cons_succ, Nat.add_left_comm, Nat.add_comm] at this

variable {R : Running} {s inner : Scope} {b b' : Builder} {f : Frame}
  {callers : List (Frame × TempId)} {w : World}

theorem leads_lowerParams {params : List (String × Storage × Nat)} {locals declared : List Local}
    (hparams : List.Forall₂ (Passes args) params declared) (ho : b.Open) (hp : Placed s b)
    (hm : Yields (lowerParams params s) R.ctx b inner b') (hgrows : Grows b' R.final) (hat : At R.function b f)
    (hargs : f.args = args) (hmodels : Models R.final s f.slots locals) :
    b'.Open ∧ Placed inner b' ∧ inner.loop = s.loop ∧
      ∃ f', Leads R.ir ⟨f, callers, w⟩ (.go ⟨f', callers, w⟩) ∧ At R.function b' f' ∧
        Models R.final inner f'.slots (declared.reverse ++ locals) := by
  induction hparams generalizing b s f locals with
  | nil =>
    obtain ⟨rfl, rfl⟩ := yields_lowerParams_nil.1 hm
    exact ⟨ho, hp, rfl, f, .refl _, hat, hmodels⟩
  | @cons p l params declared hpasses _ ih =>
    obtain ⟨name, ty, index⟩ := p
    obtain ⟨lname, t, lvalue⟩ := l
    obtain ⟨rfl, hty, value, rfl, hvalue⟩ := hpasses
    have hrest := yields_lowerParams_cons.1 hm
    have ho₁ := (ho.addSlot ty).emit (.store ⟨b.slots.size⟩ (.param index))
    have hgrows₁ := (extending_lowerParams _ _ ho₁ hrest).1.grows.trans hgrows
    have hslot : storage t = .ok (R.final.slotType ⟨b.slots.size⟩) := by
      rw [slotType_fresh ((Extends.emit (ho.addSlot ty) _).grows.trans hgrows₁), hty]
    have hv : f.value? (.param index) = some value := by rw [Frame.value?, hargs, hvalue]
    obtain ⟨f₁, hl₁, hs₁, hat₁, hmodels₁⟩ := leads_declare callers w (hat.addSlot ty) (ho.addSlot ty) hmodels
      hgrows₁ hv hp.not_mem hslot lname
    obtain ⟨ho₂, hp₂, hloop, f₂, hl₂, hat₂, hmodels₂⟩ := ih ho₁ (hp.declare (by simp) lname) hrest hat₁
      ((hs₁ b).args.trans hargs) hmodels₁
    refine ⟨ho₂, hp₂, hloop, f₂, hl₁.trans hl₂, hat₂, ?_⟩
    rw [reverse_cons, append_assoc]
    exact hmodels₂

/-! ### Calls -/

theorem at_enter {program : CheckedProgram} (h : Lowered program structs name decl sig b g) (args : List Value) :
    ∃ frame, Frame.enter g args = some frame ∧ frame.args = args ∧
      At g (Builder.switchTo (Builder.addBlock {}) ⟨0⟩) frame := by
  obtain ⟨block, hblock⟩ := (of_verify h.verified).1
  have hid : block.id = ⟨0⟩ := by
    have := (finished_of_finish h.blocks).head_index hblock
    cases hblock : block.id
    simp_all
  refine ⟨_, by rw [Frame.enter, hblock]; rfl, rfl, rfl, ?_, hid, rfl⟩
  exact isSome_iff_exists.1 (List.find?_isSome.2 ⟨block, mem_of_mem_head? hblock, by simp [hid]⟩)

theorem Follows.returned (R : Running) {v : Operand} (hloop : s.loop = none) (ho : b.Open)
    (hret : storage sig.ret = .ok R.function.ret)
    (hgrows : Grows (b.terminate (bodyEnd decl R.function.ret v)) R.final) {m : Machine}
    (h : Follows R s b' m (Arrives R s b v) r) (hresult : Source.callResult decl sig r = some (result, w')) :
    Leads R.ir m (returned m.callers result w') := by
  obtain ⟨result', σ⟩ := r
  match result', h with
  | .ok value, ⟨f, hl, _, harr⟩ =>
    have hresult : (if decl.body.tail.isSome || sig.ret == .unit then some (.ok value, σ.world) else none) =
      some (result, w') := hresult
    split at hresult
    · rename_i hends
      cases hresult
      have hend : bodyEnd decl R.function.ret v = .ret v := by
        refine if_pos ?_
        rcases Bool.or_eq_true_iff.1 hends with htail | hunit
        · rw [htail, Bool.true_or]
        · rw [beq_iff_eq.1 hunit] at hret
          have hret : .unit = R.function.ret := Except.ok.inj hret
          rw [← hret]
          exact Bool.or_true _
      rw [hend] at hgrows
      refine hl.trans (.single ?_)
      rw [step_terminate harr.position ho R.realizes hgrows]
      simp [Machine.leave?, harr.value, Lowering.returned]
    · cases hresult
  | .error .brk, ⟨_, _, htargets, _⟩ | .error .cont, ⟨_, _, htargets, _⟩ => cases hloop.symm.trans htargets
  | .error (.ret value), h | .error (.fail failure), h =>
    cases hresult
    exact h

/-- The code of a function follows its run, if calls are followed. -/
theorem leads_of_evalBlock (R : Running) (h : Lowered R.program R.ir.structs name decl sig R.final R.function)
    (hname : name.text = R.name) (hlength : args.length = sig.params.length)
    (hr : R.setting.evalBlock decl.body ⟨Source.parameters decl sig args, w⟩ = some r)
    (hresult : Source.callResult decl sig r = some (result, w')) :
    ∃ frame, Frame.enter R.function args = some frame ∧
      ∀ callers, Leads R.ir ⟨frame, callers, w⟩ (returned callers result w') := by
  obtain ⟨frame, henter, hargs, hat⟩ := at_enter h args
  refine ⟨frame, henter, fun callers => ?_⟩
  have hbody := h.body
  rw [hname] at hbody
  obtain ⟨s, b₁, v, b₂, hm₁, hm₂, hfinal⟩ := yields_lowerBody.1 hbody
  have ho : (Builder.switchTo (Builder.addBlock {}) ⟨0⟩).Open := ⟨by decide, by decide⟩
  obtain ⟨h₁, ho₁⟩ := extending_lowerParams _ _ ho hm₁
  obtain ⟨h₂, ho₂⟩ := extending_lowerBlock decl.body s ho₁ hm₂
  have hgrows₂ : Grows (b₂.terminate (bodyEnd decl R.function.ret v)) R.final := hfinal ▸ .refl _
  have hgrows₁ := (Grows.terminate ho₂ _).trans hgrows₂
  have hparams := passes_parameters args (decl.params.map (·.name)) 0 h.params hlength (by simp)
  obtain ⟨-, hp₁, hloop, f₁, hl₁, hat₁, hmodels₁⟩ := leads_lowerParams hparams ho ⟨by simp, by simp⟩ hm₁
    (h₂.grows.trans hgrows₁) hat hargs .nil
  rw [append_nil] at hmodels₁
  exact hl₁.trans (Follows.returned R hloop ho₂ h.ret hgrows₂
    (simulates_block R decl.body s ho₁ hp₁ hm₂ hgrows₁ hat₁ hmodels₁ hr) hresult)

/-! ### Programs -/

/-- Functions and structs are told apart by the written forms of their names. -/
structure TextsApart (program : CheckedProgram) : Prop where
  functions : ∀ name ∈ program.functions, ∀ other ∈ program.functions,
    name.text = other.text → name = other
  structs : ∀ name ∈ program.signatures.structs, ∀ other ∈ program.signatures.structs,
    name.text = other.text → name = other

theorem textsApart_iff (program : CheckedProgram) : TextsApart program ↔
    (∀ name ∈ program.functions.keys, ∀ other ∈ program.functions.keys, name.text = other.text → name = other) ∧
    ∀ name ∈ program.signatures.structs.keys, ∀ other ∈ program.signatures.structs.keys,
      name.text = other.text → name = other := by
  simp only [Std.TreeMap.mem_keys]
  exact ⟨fun h => ⟨h.functions, h.structs⟩, fun h => ⟨h.1, h.2⟩⟩

instance (program : CheckedProgram) : Decidable (TextsApart program) :=
  decidable_of_iff _ (textsApart_iff program).symm

variable {program : CheckedProgram} {entry : Option QualName} {ir : Ir.Program}

theorem laidOut_of_lowerProgram (h : lowerProgram program entry = .ok ir) (hapart : TextsApart program) :
    LaidOut program ir.structs := by
  intro name sig hsig
  obtain ⟨layout, hlayout, hget⟩ := get?_of_lowerTable (lowerProgram_eq_ok h).1 hapart.structs hsig
  exact ⟨layout, hget, hlayout⟩

/-- A call that ends within a limit ends in the same way when the lowered function runs,
whichever functions wait for it. -/
theorem leads_of_run (h : lowerProgram program entry = .ok ir) (hapart : TextsApart program) (limit : Nat)
    {w : World} (hrun : Source.run program limit name args w = some (result, w')) :
    ∃ g frame, ir.functions.get? name.text = some g ∧ Frame.enter g args = some frame ∧
      ∀ callers, Leads ir ⟨frame, callers, w⟩ (returned callers result w') := by
  induction limit generalizing name args w result w' with
  | zero => cases hrun
  | succ n ih =>
    obtain ⟨f, hf, hrun⟩ := bind_eq_some_iff.1 hrun
    obtain ⟨sig, hsig, hrun⟩ := bind_eq_some_iff.1 hrun
    dsimp only at hrun
    split at hrun
    · rename_i hlength
      obtain ⟨r, hr, hresult⟩ := bind_eq_some_iff.1 hrun
      obtain ⟨g, hlower, hg⟩ := get?_of_lowerTable (lowerProgram_eq_ok h).2.2 hapart.functions hf
      obtain ⟨sig', b, hlowered⟩ := lowerFunction_eq_ok.1 hlower
      cases hsig.symm.trans hlowered.signature
      -- calls from here are of runs with a smaller limit
      let R : Running := ⟨program, Source.run program n, n, name.text, ir, g, b,
        realizes_of_lowered hlowered, laidOut_of_lowerProgram h hapart, fun _ _ _ _ _ hcall => ih hcall⟩
      obtain ⟨frame, henter, hleads⟩ := leads_of_evalBlock R hlowered rfl hlength hr hresult
      exact ⟨g, frame, hg, henter, hleads⟩
    · cases hrun

/-- **Lowering preserves behaviour.**  Where names are told apart by their written forms,
a call that ends in the source ends in the lowered program with the same value or failure,
and leaves the same lists and the same events. -/
theorem ends_of_lowerProgram (h : lowerProgram program entry = .ok ir) (hapart : TextsApart program)
    {name : QualName} {args : List Value} {w w' : World} {result : Except Failure Value}
    (hends : Source.Ends program name args w result w') :
    ∃ g, ir.functions.get? name.text = some g ∧ Ir.Ends ir g args w result w' := by
  obtain ⟨limit, hrun⟩ := hends
  obtain ⟨g, frame, hg, henter, hleads⟩ := leads_of_run h hapart limit hrun
  refine ⟨g, hg, frame, henter, ?_⟩
  have := hleads []
  cases result <;> exact this

/-- A loop with `break` and `continue` that prints the sums of odd numbers. -/
def oddSums : SourceFile where
  path := ⟨"app/main.kl"⟩
  text := "fn sum(n: i64) -> i64 \x7b
  let mut total: i64 = 0;
  let mut i: i64 = 0;
  while true \x7b
    if i >= n \x7b break; \x7d
    i = i + 1;
    if i % 2 == 0 \x7b continue; \x7d
    total = total + i;
    print(total);
  \x7d
  total
\x7d"

set_option maxRecDepth 10000 in
theorem ends_of_lowerProgram_oddSums :
    ∃ program ir g result w, Accepted [oddSums] program ir ∧ TextsApart program ∧
      ir.functions.get? "app::sum" = some g ∧ w.events.length = 2 ∧
        Source.Ends program ⟨⟨"app", []⟩, "sum"⟩ [.int (.ofInt .i64 3)] {} result w ∧
          Ir.Ends ir g [.int (.ofInt .i64 3)] {} result w := by
  obtain ⟨program, ir, haccepted, htest⟩ := accepted_of_chars oddSums _ _
    (fun program _ => decide (TextsApart program) &&
      match Source.run program 9 ⟨⟨"app", []⟩, "sum"⟩ [.int (.ofInt .i64 3)] {} with
      | some (_, w) => w.events.length == 2
      | none => false) rfl rfl (by decide +kernel)
  obtain ⟨hapart, hrun⟩ := Bool.and_eq_true_iff.1 htest
  replace hapart := of_decide_eq_true hapart
  split at hrun
  · rename_i result w heq
    have hends : Source.Ends program ⟨⟨"app", []⟩, "sum"⟩ [.int (.ofInt .i64 3)] {} result w := ⟨9, heq⟩
    obtain ⟨g, hg, hmachine⟩ := ends_of_lowerProgram haccepted.lowered hapart hends
    exact ⟨program, ir, g, result, w, haccepted, hapart, hg, by simpa using hrun, hends, hmachine⟩
  · cases hrun

/-- Two files whose functions `f` have names of the same written form. -/
def sameText : List SourceFile :=
  [⟨⟨"a/b.kl"⟩, "fn f() -> i64 \x7b 1 \x7d\nfn g() -> i64 \x7b f() \x7d"⟩,
    ⟨⟨"a::b/main.kl"⟩, "fn f() -> bool \x7b true \x7d"⟩]

/-- Does the source give a number where the machine gives a truth value? -/
def numberForTruth {φ ω : Type} : Option (Except φ Value × ω) → Option (Except φ Value × ω) → Bool
  | some (.ok (.int _), _), some (.ok (.bool _), _) => true
  | _, _ => false

theorem exists_of_numberForTruth {φ ω : Type} {r r' : Option (Except φ Value × ω)}
    (h : numberForTruth r r' = true) :
    ∃ n w holds w', r = some (.ok (.int n), w) ∧ r' = some (.ok (.bool holds), w') := by
  unfold numberForTruth at h
  split at h
  · exact ⟨_, _, _, _, rfl, rfl⟩
  · cases h

/-- **Names of the same written form are mixed up**: in the source `g` gives a number, and in
the lowered program it gives what the other `f` gives, a truth value. -/
theorem not_ends_of_sameText :
    ∃ program ir g n w, Accepted sameText program ir ∧ ¬TextsApart program ∧
      ir.functions.get? "a::b::g" = some g ∧
        Source.Ends program ⟨⟨"a", ["b"]⟩, "g"⟩ [] {} (.ok (.int n)) w ∧
          ¬Ir.Ends ir g [] {} (.ok (.int n)) w := by
  obtain ⟨program, ir, haccepted, htest⟩ := accepted_of_passes sameText
    (fun program ir => !decide (TextsApart program) && (ir.functions.get? "a::b::g").any fun g =>
      numberForTruth (Source.run program 3 ⟨⟨"a", ["b"]⟩, "g"⟩ [] {}) (g.run? ir 9 [] {})) (by decide +kernel)
  obtain ⟨hapart, hruns⟩ := Bool.and_eq_true_iff.1 htest
  replace hapart : ¬TextsApart program := by simpa using hapart
  obtain ⟨g, hg, hruns⟩ := (any_eq_true _ _).1 hruns
  obtain ⟨n, w, holds, w', hsource, hmachine⟩ := exists_of_numberForTruth hruns
  refine ⟨program, ir, g, n, w, haccepted, hapart, hg, ⟨3, hsource⟩, fun hends => ?_⟩
  obtain ⟨hsame, -⟩ := (Ir.Ends.of_run? hmachine).unique hends
  cases hsame

end Keel.Lowering
