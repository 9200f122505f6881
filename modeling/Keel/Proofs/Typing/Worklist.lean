/-
# The worklist drains

Instances of generic functions are checked in the order in which they were asked for.  A job
is a function to be checked with its depth: functions that are not generic have depth 0, and
an instance is one deeper than the function that first asked for it.

`Drains` is a run of the queue that ends, with a log of its turns.  Checking all bodies is such
a run (`drains_checkBodies`).  By induction on it:

* no function has two turns, and none is deeper than `maxDepth`;
* what is queued in a turn has a turn of its own, one deeper;
* so a function whose instances always ask for new ones ends with one that is refused, and the
  refusal is reported.
-/
import Keel.Proofs.Source.Reports
import Keel.Proofs.Typing.Separation

namespace Keel
namespace Typing

open List

/-! ### The queue -/

structure Job where
  name : QualName
  depth : Nat

/-- A job that was done, with the state of the checker before and after it. -/
structure Turn where
  job : Job
  before : State
  after : State

/-- The jobs of a queue are done in turn until there are none.  Jobs are taken from the head of
`front`; the instances that a turn asks for go to `back`, the newest first, and come to the front
when nothing is left there. -/
inductive Drains (d : Declarations) : List Job → List Job → State → List Turn → State → Prop where
  | done {s : State} : s.pending = [] → Drains d [] [] s [] s
  | shift {back : List Job} {s t : State} {log : List Turn} : back ≠ [] →
      Drains d back.reverse [] { s with pending := [] } log t → Drains d [] back s log t
  | turn {job : Job} {front back : List Job} {new : List QualName} {s s' t : State} {log : List Turn} :
      (checkFunction job.depth job.name d s).2 = s' → s'.pending = new ++ s.pending →
      Drains d front (new.map (⟨·, job.depth + 1⟩) ++ back) s' log t →
      Drains d (job :: front) back s (⟨job, s, s'⟩ :: log) t

variable {d : Declarations} {s s' t : State} {front back : List Job} {log : List Turn} {depth : Nat}
  {name : QualName} {declares : QualName → FunctionDef → Prop} {I : State → Prop} {Q : State → CheckedFunction → Prop}
  {todo : List QualName}

/-! ### One turn -/

/-- What is reported stays, and what is new waits, none of it at the greatest depth. -/
theorem turn_checkFunction (d : Declarations) (s : State) (depth : Nat) (name : QualName) :
    s.reports <:+ (checkFunction depth name d s).2.reports ∧
      ∃ new, (checkFunction depth name d s).2.pending = new ++ s.pending ∧ (maxDepth ≤ depth → new = []) := by
  rcases hg : s.functions.get? name with _ | g
  · rw [checkFunction_eq_self (.inl hg)]
    exact ⟨suffix_refl _, [], rfl, fun _ => rfl⟩
  rcases hsig : s.signatures.functions.get? name with _ | sig
  · rw [checkFunction_eq_self (.inr hsig)]
    exact ⟨suffix_refl _, [], rfl, fun _ => rfl⟩
  rw [checkFunction_eq hg hsig]
  have heffect : Effect depth g.decl.body.Numbers s (checkBody g sig depth d s).2 := effect_checkBody s
  obtain ⟨new, hpending, -, -, hdeep⟩ := heffect.pending
  exact ⟨heffect.reports, new, hpending, hdeep⟩

/-- A function that waited has been checked after its turn, and what had been checked still is. -/
theorem Underway.checked_turn (h : Underway declares I Q (name :: todo) s) (depth : Nat) {other : QualName}
    (hother : (Typing.checkFunction depth name d s).2.checked.get? other = none) :
    name ≠ other ∧ s.checked.get? other = none := by
  obtain ⟨hsigned, -⟩ := (h.waiting name).1 (by simp)
  obtain ⟨g, hg, -⟩ := h.linked.declared name hsigned
  obtain ⟨sig, hsig⟩ := Option.isSome_iff_exists.1 hsigned
  have heffect : Effect depth g.decl.body.Numbers s (checkBody g sig depth d s).2 := effect_checkBody s
  rw [checkFunction_eq hg hsig] at hother
  simp only [get?_insert, heffect.checked] at hother
  split at hother
  · cases hother
  · exact ⟨‹_›, hother⟩

/-! ### All turns -/

namespace Drains

variable (h : Drains d front back s log t)

include h

theorem pending_eq_nil : t.pending = [] := by
  induction h with
  | done hnone => exact hnone
  | shift _ _ ih | turn _ _ _ ih => exact ih

theorem reports : s.reports <:+ t.reports := by
  induction h with
  | done _ => exact suffix_refl _
  | shift _ _ ih => exact ih
  | turn hrun _ _ ih => exact (hrun ▸ (turn_checkFunction d _ _ _).1).trans ih

theorem reports_of_mem : ∀ turn ∈ log, turn.after.reports <:+ t.reports := by
  induction h with
  | done _ => simp
  | shift _ _ ih => exact ih
  | turn _ _ hrest ih => exact forall_mem_cons.2 ⟨hrest.reports, ih⟩

/-- **No job is too deep.**  The last ones ask for nothing. -/
theorem depth_le (hfront : ∀ job ∈ front, job.depth ≤ maxDepth)
    (hback : ∀ job ∈ back, job.depth ≤ maxDepth) : ∀ turn ∈ log, turn.job.depth ≤ maxDepth := by
  induction h with
  | done _ => simp
  | shift _ _ ih => exact ih (fun job hjob => hback job (List.mem_reverse.1 hjob)) (by simp)
  | @turn job front back new s s' t log hrun hpending _ ih =>
    obtain ⟨hjob, hfront⟩ := forall_mem_cons.1 hfront
    refine forall_mem_cons.2 ⟨hjob, ih hfront fun other hother => ?_⟩
    rcases mem_append.1 hother with hnew | hold
    · obtain ⟨name, hname, rfl⟩ := mem_map.1 hnew
      obtain ⟨-, new', hnew', hdeep⟩ := turn_checkFunction d s job.depth job.name
      rw [hrun, hpending] at hnew'
      have hne : ¬ maxDepth ≤ job.depth := fun hle => by
        rw [append_cancel_right hnew', hdeep hle] at hname
        cases hname
      show job.depth + 1 ≤ maxDepth
      omega
    · exact hback other hold

/-- **No function has two turns**, and those that have one were not checked before.  Before each turn the checker
is in the middle of its work, with that function next. -/
theorem nodup (he : Establishes d I Q)
    (hunderway : Underway declares I Q (front.map (·.name)) s) (hback : back.map (·.name) = s.pending) :
    (log.map (·.job.name)).Nodup ∧ (∀ turn ∈ log, s.checked.get? turn.job.name = none) ∧
      ∀ turn ∈ log, ∃ todo, Underway declares I Q (turn.job.name :: todo) turn.before ∧
        (checkFunction turn.job.depth turn.job.name d turn.before).2 = turn.after := by
  induction h with
  | done _ => simp
  | @shift back s t log _ _ ih =>
    refine ih ?_ rfl
    rw [map_reverse, hback]
    exact hunderway.takePending he
  | @turn job front back new s s' t log hrun hpending _ ih =>
    subst hrun
    have hnext := (hunderway.checkFunction he job.depth).1
    obtain ⟨hnodup, hnone, hlater⟩ := ih hnext (by simp [hpending, hback, Function.comp_def])
    have hturn := fun turn (hmem : turn ∈ log) =>
      hunderway.checked_turn (d := d) job.depth (hnone turn hmem)
    refine ⟨nodup_cons.2 ⟨fun hmem => ?_, hnodup⟩, forall_mem_cons.2 ⟨?_, fun turn hmem => ?_⟩,
      forall_mem_cons.2 ⟨⟨_, hunderway, rfl⟩, hlater⟩⟩
    · obtain ⟨turn, hturn', heq⟩ := mem_map.1 hmem
      exact (hturn turn hturn').1 heq.symm
    · exact ((hunderway.waiting job.name).1 (by simp)).2
    · exact (hturn turn hmem).2

/-- Every job that is in the queue has its turn. -/
theorem exists_turn {job : Job} (hjob : job ∈ front ++ back) :
    ∃ turn ∈ log, turn.job = job := by
  induction h with
  | done _ => simp at hjob
  | shift _ _ ih => exact ih (by simpa using hjob)
  | @turn first front back new s s' t log _ _ _ ih =>
    rcases mem_append.1 hjob with hfront | hback
    · rcases mem_cons.1 hfront with rfl | hfront
      · exact ⟨_, mem_cons_self, rfl⟩
      · obtain ⟨turn, hmem, heq⟩ := ih (by simp [hfront])
        exact ⟨turn, mem_cons_of_mem _ hmem, heq⟩
    · obtain ⟨turn, hmem, heq⟩ := ih (by simp [hback])
      exact ⟨turn, mem_cons_of_mem _ hmem, heq⟩

end Drains

def Turn.Queues (turn : Turn) (name : QualName) : Prop :=
  name ∈ turn.after.pending ∧ name ∉ turn.before.pending

/-- **What is queued in a turn has a turn of its own**, one deeper. -/
theorem Drains.exists_turn_of_queues (h : Drains d front back s log t) :
    ∀ turn ∈ log, ∀ name, turn.Queues name → ∃ later ∈ log, later.job = ⟨name, turn.job.depth + 1⟩ := by
  induction h with
  | done _ => simp
  | shift _ _ ih => exact ih
  | @turn job front back new s s' t log hrun hpending hrest ih =>
    refine forall_mem_cons.2 ⟨fun name hqueues => ?_, fun turn hmem name hqueues => ?_⟩
    · have hnew : name ∈ new := by
        have hmem := hqueues.1
        rw [show s'.pending = new ++ s.pending from hpending] at hmem
        exact (mem_append.1 hmem).resolve_right hqueues.2
      have hqueued : ⟨name, job.depth + 1⟩ ∈ front ++ (new.map (⟨·, job.depth + 1⟩ : QualName → Job) ++ back) := by
        simp [hnew]
      obtain ⟨later, hlater, heq⟩ := hrest.exists_turn hqueued
      exact ⟨later, mem_cons_of_mem _ hlater, heq⟩
    · obtain ⟨later, hlater, heq⟩ := ih turn hmem name hqueues
      exact ⟨later, mem_cons_of_mem _ hlater, heq⟩

/-! ### Requests -/

/-- What waited, was reported or had a signature still does. -/
structure Accrues (s s' : State) : Prop where
  pending : s.pending <:+ s'.pending
  reports : s.reports <:+ s'.reports
  signed : ∀ name, s.Signed name → s'.Signed name

def InstanceOf (base name : QualName) : Prop :=
  ∃ params args, params ≠ [] ∧ name = instanceName base params args

/-- Somewhere on the way an instance of `base` is asked for that is not there yet; before and
after that, the state only grows. -/
inductive Requests (d : Declarations) (base : QualName) (depth : Nat) : {α : Type} → Check α → State → Prop where
  | here {s : State} {f : FunctionDecl} {args : List Ty} {site : Site} : f.decl.typeParams ≠ [] →
      ¬ s.Signed (instanceName base f.decl.typeParams args) →
      Requests d base depth (instantiateFunction base f args depth site) s
  | first {α β : Type} {m : Check α} {k : α → Check β} {s : State} : Requests d base depth m s →
      Accrues (m d s).2 (k (m d s).1 d (m d s).2).2 → Requests d base depth (m >>= k) s
  | later {α β : Type} {m : Check α} {k : α → Check β} {s : State} : Accrues s (m d s).2 →
      Requests d base depth (k (m d s).1) (m d s).2 → Requests d base depth (m >>= k) s

/-- A new instance is queued, or refused with a report if it would be too deep. -/
theorem instantiateFunction_of_new (base : QualName) (f : FunctionDecl) (args : List Ty) (depth : Nat)
    (site : Site) (hnew : ¬ s.Signed (instanceName base f.decl.typeParams args)) :
    Sat d s (instantiateFunction base f args depth site) fun _ s' =>
      s'.pending = instanceName base f.decl.typeParams args :: s.pending ∨
        s'.reports = ⟨site.file, site.span, .instanceDepth base.name maxDepth⟩ :: s.reports := by
  let name := instanceName base f.decl.typeParams args
  refine Sat.bind (R := fun r s' => r = s.signatures.functions.get? name ∧ s = s') ⟨rfl, rfl⟩ ?_
  rintro _ _ ⟨rfl, rfl⟩
  rw [if_neg (show ¬ (s.signatures.functions.get? name).isSome = true from hnew)]
  split
  · exact .inr rfl
  · let copy := f.decl.instance name.name (bindParams f.decl.typeParams args) s.nextId
    let g : FunctionDecl := { scope := f.scope, decl := copy.1, selfType := none }
    let s₁ : State := { s with nextId := copy.2, functions := s.functions.insert name g }
    obtain ⟨s₂, sig, hresolves, hbuilt⟩ :=
      resolves_buildFunction (d := d) (show s₁.functions.get? name = some g by simp [s₁])
    refine .inl ?_
    show name :: (buildFunction name d s₁).2.pending = name :: s.pending
    rw [hbuilt]
    exact congrArg (name :: ·) hresolves.pending

/-- **Every request is granted or refused.** -/
theorem Requests.outcome {α : Type} {c : Check α} {base : QualName} (h : Requests d base depth c s) :
    (∃ name ∈ (c d s).2.pending, InstanceOf base name ∧ ¬ s.Signed name) ∨
      ∃ r ∈ (c d s).2.reports, r.problem = .instanceDepth base.name maxDepth := by
  induction h with
  | @here s f args site hparams hnew =>
    rcases instantiateFunction_of_new (d := d) base f args depth site hnew with hpending | hreports
    · exact .inl ⟨_, hpending ▸ mem_cons_self, ⟨_, _, hparams, rfl⟩, hnew⟩
    · exact .inr ⟨_, hreports ▸ mem_cons_self, rfl⟩
  | first _ haccrues ih =>
    rcases ih with ⟨name, hmem, hname⟩ | ⟨r, hr, hproblem⟩
    · exact .inl ⟨name, haccrues.pending.subset hmem, hname⟩
    · exact .inr ⟨r, haccrues.reports.subset hr, hproblem⟩
  | later haccrues _ ih =>
    rcases ih with ⟨name, hmem, hname, hnew⟩ | hrefused
    · exact .inl ⟨name, hmem, hname, fun hsigned => hnew (haccrues.signed name hsigned)⟩
    · exact .inr hrefused

/-- In this turn an instance of `base` is asked for that is not there yet. -/
def Turn.Requests (d : Declarations) (turn : Turn) (base : QualName) : Prop :=
  ∃ g sig, turn.before.functions.get? turn.job.name = some g ∧
    turn.before.signatures.functions.get? turn.job.name = some sig ∧
    Typing.Requests d base turn.job.depth (checkBody g sig turn.job.depth) turn.before

/-- **Asking for new instances without end is reported.**  Each request that is granted leads to a
turn one deeper, so at last one is refused. -/
theorem Drains.exists_refusal (h : Drains d front back s log t) (he : Establishes d I Q)
    (hunderway : Underway declares I Q (front.map (·.name)) s) (hback : back.map (·.name) = s.pending)
    (hdepth : ∀ turn ∈ log, turn.job.depth ≤ maxDepth) {base : QualName}
    (hasks : ∀ turn ∈ log, InstanceOf base turn.job.name → turn.Requests d base) {turn : Turn}
    (hturn : turn ∈ log) (hinstance : InstanceOf base turn.job.name) :
    ∃ r ∈ t.reports, r.problem = .instanceDepth base.name maxDepth := by
  induction hroom : maxDepth - turn.job.depth using Nat.strongRecOn generalizing turn with
  | ind room ih =>
    obtain ⟨g, sig, hg, hsig, hrequests⟩ := hasks turn hturn hinstance
    obtain ⟨todo, hbefore, hafter⟩ := (h.nodup he hunderway hback).2.2 turn hturn
    rw [checkFunction_eq hg hsig] at hafter
    rcases hrequests.outcome with ⟨name, hmem, hname, hnew⟩ | ⟨r, hr, hproblem⟩
    · have hwaits : name ∉ turn.before.pending := fun hold =>
        hnew ((hbefore.waiting name).1 (mem_append_right _ hold)).1
      obtain ⟨later, hlater, heq⟩ := h.exists_turn_of_queues turn hturn name ⟨hafter ▸ hmem, hwaits⟩
      have hle := hdepth later hlater
      rw [heq] at hle
      refine ih (maxDepth - later.job.depth) ?_ hlater (heq ▸ hname) rfl
      rw [heq, ← hroom]
      exact Nat.sub_lt_sub_left hle (Nat.lt_succ_self _)
    · exact ⟨r, (h.reports_of_mem turn hturn).subset (hafter ▸ hr), hproblem⟩

/-! ### Checking all bodies -/

/-- One generation: its jobs have their turns, and what they ask for is behind them. -/
theorem Underway.exists_turns (h : Underway declares I Q todo s) (he : Establishes d I Q) (depth : Nat) :
    ∃ turns s', (todo.forM (Typing.checkFunction depth) d s).2 = s' ∧ Underway declares I Q [] s' ∧
      (maxDepth ≤ depth → s'.pending = s.pending) ∧
      ∀ log t, Drains d [] (s'.pending.map (⟨·, depth + 1⟩)) s' log t →
        Drains d (todo.map (⟨·, depth⟩)) (s.pending.map (⟨·, depth + 1⟩)) s (turns ++ log) t := by
  induction todo generalizing s with
  | nil => exact ⟨[], s, rfl, h, fun _ => rfl, fun _ _ hrest => hrest⟩
  | cons name todo ih =>
    obtain ⟨hnext, hdeep⟩ := h.checkFunction he depth
    obtain ⟨-, new, hpending, -⟩ := turn_checkFunction d s depth name
    obtain ⟨turns, s', hrun, hlast, hdeep', hdrains⟩ := ih hnext
    refine ⟨⟨⟨name, depth⟩, s, _⟩ :: turns, s', hrun, hlast, fun hle => (hdeep' hle).trans (hdeep hle),
      fun log t hrest => .turn rfl hpending ?_⟩
    have := hdrains log t hrest
    rwa [hpending, map_append] at this

theorem Drains.shift_pending {f : QualName → Job}
    (h : Drains d (s.pending.reverse.map f) [] { s with pending := [] } log t) :
    Drains d [] (s.pending.map f) s log t := by
  rcases hpending : s.pending with _ | ⟨name, names⟩
  · rw [hpending] at h
    have heq : { s with pending := [] } = s := by rw [← hpending]
    rwa [heq] at h
  · refine .shift (by simp) ?_
    rwa [map_reverse, hpending] at h

theorem Underway.drains_checkGenerations (h : Underway declares I Q [] s) (he : Establishes d I Q) {n : Nat}
    (hn : n < maxDepth) : ∃ log, Drains d [] (s.pending.map (⟨·, maxDepth - n⟩)) s log
      (Typing.checkGenerations (n + 1) d s).2 := by
  induction n generalizing s with
  | zero =>
    obtain ⟨turns, s', hrun, -, hdeep, hdrains⟩ := (h.takePending he).exists_turns he maxDepth
    have hpending : s'.pending = [] := hdeep (Nat.le_refl _)
    refine ⟨turns ++ [], .shift_pending ?_⟩
    rw [show (Typing.checkGenerations 1 d s).2 = s' from hrun]
    exact hdrains [] s' (by rw [hpending]; exact .done hpending)
  | succ n ih =>
    obtain ⟨turns, s', hrun, hnext, -, hdrains⟩ := (h.takePending he).exists_turns he (maxDepth - (n + 1))
    obtain ⟨log, hlog⟩ := ih hnext (by omega)
    have hend : (Typing.checkGenerations (n + 1 + 1) d s).2 = (Typing.checkGenerations (n + 1) d s').2 := by
      rw [← hrun]
      rfl
    refine ⟨turns ++ log, .shift_pending (hend ▸ hdrains log _ ?_)⟩
    rwa [show maxDepth - (n + 1) + 1 = maxDepth - n by omega]

theorem forIn_plainNames (run : QualName → Check Unit) (functions : List (QualName × FunctionDecl)) :
    (forIn functions PUnit.unit fun (name, f) _ => do
      if f.decl.typeParams.isEmpty then
        run name
      pure (ForInStep.yield PUnit.unit) : Check PUnit) = (plainNames functions).forM run := by
  induction functions with
  | nil => rfl
  | cons first rest ih =>
    obtain ⟨name, f⟩ := first
    rw [forIn_cons]
    by_cases hplain : f.decl.typeParams.isEmpty
    · have hnames : plainNames ((name, f) :: rest) = name :: plainNames rest := by simp [plainNames, hplain]
      rw [hnames, show (name :: plainNames rest).forM run =
        (run name >>= fun _ => (plainNames rest).forM run) from rfl, ← ih]
      simp [hplain]
    · have hnames : plainNames ((name, f) :: rest) = plainNames rest := by simp [plainNames, hplain]
      rw [hnames, ← ih]
      simp [hplain]

theorem checkBodies_eq : checkBodies = (do
    (plainNames (← get).functions.toList).forM (Typing.checkFunction 0)
    checkGenerations maxDepth) := by
  simp only [← forIn_plainNames]
  rfl

theorem run_plainNames (run : QualName → Check Unit) (later : Check Unit) (s : State) :
    (do (plainNames (← get).functions.toList).forM run; later : Check Unit) d s =
      later d ((plainNames s.functions.toList).forM run d s).2 :=
  rfl

/-- **Checking all bodies is a run of the queue.** -/
theorem drains_checkBodies (h : Founded declares [] s) : ∃ log,
    Drains d ((plainNames s.functions.toList).map (⟨·, 0⟩)) [] s log (checkBodies d s).2 := by
  have hstart : Underway declares (fun _ => True) (fun _ _ => True) _ s := .start h trivial
  have he := establishes_true d
  obtain ⟨turns, s', hrun, hnext, -, hdrains⟩ := hstart.exists_turns he 0
  obtain ⟨log, hlog⟩ := hnext.drains_checkGenerations he (n := 63) (by decide)
  rw [show maxDepth - 63 = 0 + 1 from rfl, show 63 + 1 = maxDepth from rfl] at hlog
  have hend : (checkBodies d s).2 = (checkGenerations maxDepth d s').2 := by
    rw [checkBodies_eq, run_plainNames, hrun]
  refine ⟨turns ++ log, ?_⟩
  rw [hend]
  have hall := hdrains log _ hlog
  rwa [h.pending] at hall

/-! ### From files to diagnostics -/

end Typing

namespace Diagnostic

theorem exists_mem_sorted {x : Diagnostic} {bag : List Diagnostic} (h : x ∈ bag) :
    ∃ y ∈ sorted bag, y.message = x.message := by
  obtain ⟨y, hy, hsame⟩ := exists_same_mergeNeighbours (List.mem_mergeSort.2 h)
  simp only [same, Bool.and_eq_true, beq_iff_eq] at hsame
  exact ⟨y, hy, hsame.1.2.symm⟩

end Diagnostic

namespace Typing

theorem phase_of_clean {decls : Declarations} {c : Check Unit} (h : (c decls s).2.Clean) :
    phase decls c s = .ok (c decls s).2 :=
  if_pos (List.isEmpty_iff.2 h)

theorem phase_of_reports {decls : Declarations} {c : Check Unit} (h : (c decls s).2.reports ≠ []) :
    phase decls c s = .error (c decls s).2.reports.reverse :=
  if_neg fun hnone => h (List.isEmpty_iff.1 hnone)

/-- Only the bodies give reason to report. -/
theorem checkAll_of_reports {modules : List ModuleDef} {n : Nat} {c : Collected}
    (hc : Collected.ofFiles (modules.map fun m => ⟨ModulePath.ofFile m.path, m⟩) = (c, []))
    (hclean : (c.afterConsts n).Clean) (hreports : (c.afterBodies n).reports ≠ []) :
    checkAll modules n = .error (c.afterBodies n).reports.reverse := by
  have hsigned : (c.afterSignatures n).Clean := by
    have hsuffix := (peeks_checkConsts.resolving (c.afterSignatures n) : Resolves _ (checkConsts c.decls _).2).reports
    rw [← Collected.afterConsts, hclean] at hsuffix
    exact List.suffix_nil.1 hsuffix
  have hphases : checkAll modules n = (do
      let s ← phase c.decls (checkSignatures c.impls.reverse) (c.start n)
      let s ← phase c.decls checkConsts s
      let s ← phase c.decls checkBodies s
      return s.program) := by
    rw [checkAll, hc]
    rfl
  rw [Collected.afterSignatures] at hsigned
  rw [Collected.afterConsts] at hclean
  rw [Collected.afterBodies] at hreports ⊢
  rw [hphases, phase_of_clean hsigned, Lowering.ok_bind, ← Collected.afterSignatures, phase_of_clean hclean,
    Lowering.ok_bind, ← Collected.afterConsts, phase_of_reports hreports]
  rfl

/-- There is nothing to report about the files before their bodies are checked. -/
structure ReachesBodies (files : List SourceFile) : Prop where
  read : (SourceFile.readAll files 0).2.2 = []
  named : (SourceFile.gathered files).2 = []
  clean : ((SourceFile.gathered files).1.afterConsts (SourceFile.modules files).2).Clean

namespace ReachesBodies

variable {files : List SourceFile}

theorem readAll_eq (h : ReachesBodies files) : SourceFile.readAll files 0 =
    ((SourceFile.readAll files 0).1, (SourceFile.readAll files 0).2.1, []) := by
  rw [← h.read]

theorem rejected (h : ReachesBodies files) {r : Report Problem}
    (hr : r ∈ ((SourceFile.gathered files).1.afterBodies (SourceFile.modules files).2).reports) :
    ∃ shown, SourceFile.check files = .error (.rejected shown) ∧
      ∃ x ∈ shown, x.message = r.problem.message := by
  obtain ⟨y, hy, hmessage⟩ := Diagnostic.exists_mem_sorted
    (List.mem_map_of_mem (f := Report.diagnostic) (List.mem_reverse.2 hr))
  refine ⟨_, ?_, y, hy, hmessage⟩
  have hread : SourceFile.read files = .ok ((SourceFile.readAll files 0).1, (SourceFile.readAll files 0).2.1) := by
    rw [SourceFile.read, h.readAll_eq]
  have hall : checkModules (SourceFile.readAll files 0).1 (SourceFile.readAll files 0).2.1 = _ :=
    checkAll_of_reports (Prod.ext rfl h.named) h.clean (List.ne_nil_of_mem hr)
  rw [SourceFile.check, hread, Lowering.ok_bind, hall]
  rfl

end ReachesBodies

theorem message_instanceDepth (name : String) : (Problem.instanceDepth name maxDepth).message =
    "recursive instantiation of `" ++ name ++ "` exceeds the depth limit of 64" := by
  have hlimit : toString maxDepth = "64" := by decide
  show "recursive instantiation of `" ++ name ++ "` exceeds the depth limit of " ++ toString maxDepth = _
  rw [hlimit, String.append_assoc]
  rfl

/-- The queue of a program is worked off. -/
structure WorksOff (files : List SourceFile) (log : List Turn) : Prop where
  /-- The run ends with nothing that waits.  It is the run of the checker. -/
  drains : Drains (SourceFile.gathered files).1.decls
    ((plainNames ((SourceFile.gathered files).1.afterConsts (SourceFile.modules files).2).functions.toList).map
      (⟨·, 0⟩)) []
    ((SourceFile.gathered files).1.afterConsts (SourceFile.modules files).2) log
    ((SourceFile.gathered files).1.afterBodies (SourceFile.modules files).2)
  ends : ((SourceFile.gathered files).1.afterBodies (SourceFile.modules files).2).pending = []
  nodup : (log.map (·.job.name)).Nodup
  depth_le : ∀ turn ∈ log, turn.job.depth ≤ maxDepth
  /-- What is queued has its turn. -/
  served : ∀ turn ∈ log, ∀ name, turn.Queues name →
    ∃ later ∈ log, later.job = ⟨name, turn.job.depth + 1⟩
  /-- A function all of whose instances ask for new ones is reported. -/
  refused : ∀ base, (∃ turn ∈ log, InstanceOf base turn.job.name) →
    (∀ turn ∈ log, InstanceOf base turn.job.name →
      turn.Requests (SourceFile.gathered files).1.decls base) →
    ∃ shown, SourceFile.check files = .error (.rejected shown) ∧ ∃ x ∈ shown, x.message =
      "recursive instantiation of `" ++ base.name ++ "` exceeds the depth limit of 64"

/-- **The instances of generic functions do not run away.** -/
theorem worksOff_of_reachesBodies {files : List SourceFile} (h : ReachesBodies files) :
    ∃ log, WorksOff files log := by
  have hgathers := gathers_of_readAll h.readAll_eq
  have hfounded := founded_afterConsts hgathers.homed hgathers.room
  have he := establishes_true (SourceFile.gathered files).1.decls
  obtain ⟨log, hlog⟩ := drains_checkBodies (d := (SourceFile.gathered files).1.decls) hfounded
  rw [← Collected.afterBodies] at hlog
  have hdepth : ∀ turn ∈ log, turn.job.depth ≤ maxDepth := hlog.depth_le (by simp) (by simp)
  have hnames (names : List QualName) : (names.map (⟨·, 0⟩)).map Job.name = names := by
    simp [Function.comp_def]
  have hstart : Underway _ (fun _ => True) (fun _ _ => True) _ _ := .start hfounded trivial
  rw [← hnames (plainNames _)] at hstart
  refine ⟨log, hlog, hlog.pending_eq_nil, ?_, hdepth, hlog.exists_turn_of_queues, ?_⟩
  · exact (hlog.nodup he hstart hfounded.pending.symm).1
  · rintro base ⟨turn, hturn, hinstance⟩ hasks
    obtain ⟨r, hr, hproblem⟩ :=
      hlog.exists_refusal he hstart hfounded.pending.symm hdepth hasks hturn hinstance
    obtain ⟨shown, hshown, x, hx, hmessage⟩ := h.rejected hr
    exact ⟨shown, hshown, x, hx, hmessage.trans (hproblem ▸ message_instanceDepth _)⟩

/-- There is nothing to report about a file before its bodies, as its characters show. -/
def reachesChars (path : SourcePath) (text prelude : List Char) : Bool :=
  match Lowering.readChars path text prelude with
  | some ((m, _), prelude, n) =>
    let found := Collected.ofFiles ([m, prelude].map fun m => ⟨ModulePath.ofFile m.path, m⟩)
    found.2.isEmpty && (found.1.afterConsts n).reports.isEmpty
  | none => false

theorem reachesBodies_of_chars (file : SourceFile) (text prelude : List Char)
    (htext : String.ofList text = file.text) (hprelude : String.ofList prelude = Prelude.text)
    (h : reachesChars file.path text prelude = true) : ReachesBodies [file] := by
  unfold reachesChars at h
  split at h
  · rename_i m n more n' hread
    obtain ⟨hall, hadded⟩ := Lowering.read_of_readChars htext hprelude hread
    have hmodules : SourceFile.modules [file] = ([m, more], n') := by
      rw [SourceFile.modules, hall]
      exact hadded
    simp only [Bool.and_eq_true, List.isEmpty_iff] at h
    refine ⟨by rw [hall], ?_, ?_⟩
    · rw [SourceFile.gathered, hmodules]
      exact h.1
    · rw [SourceFile.gathered, hmodules]
      exact h.2
  · cases h

/-- A function whose instance for a type asks for the one for lists of it. -/
def growing : SourceFile :=
  ⟨⟨"app/main.kl"⟩, "fn grow[T](x: T) -> i64 { let xs: List[T] = list(); grow(xs) }
fn main() -> i64 { grow(1) }"⟩

set_option maxRecDepth 10000 in
theorem worksOff_of_reachesBodies_growing :
    ReachesBodies [growing] ∧ ∃ log, WorksOff [growing] log := by
  have h : ReachesBodies [growing] := reachesBodies_of_chars growing _ _ rfl rfl (by decide +kernel)
  exact ⟨h, worksOff_of_reachesBodies h⟩

end Typing
end Keel
