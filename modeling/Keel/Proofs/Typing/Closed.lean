/-
# Checked programs are closed

Checking makes the instances of generic functions while it goes through the bodies that ask
for them, and goes through those instances in turn.  When it ends, every function that has a
signature has been checked, every call is of one of them, and no type parameter is left, be
it in a signature, at a node or in a constant.
-/
import Keel.Proofs.Lowering.Accepted
import Keel.Proofs.Typing.Generations

namespace Keel

open List

/-! ### Functions keep the tables sound -/

namespace Typing

variable {d : Declarations}

theorem FunctionDecl.Sound.frame {g : FunctionDecl} (hg : g.Sound) {sig : FunctionSig}
    (hsig : sig.Sound) (depth : Nat) : (g.frame sig depth).Sound where
  ret := hsig.ret
  types := hg.env
  locals p hp := by
    obtain ⟨param, hparam, rfl⟩ := mem_map.1 (mem_reverse.1 hp)
    exact hsig.params param hparam

/-- **Checking a function keeps the tables sound.** -/
theorem keeps_checkFunction (hd : d.Plain) (depth : Nat) (name : QualName) :
    Keeps d (Sound d) (checkFunction depth name) := by
  refine (holds_function? name).bind fun g hg => (holds_signature? name).bind fun sig hsig => ?_
  split
  · rename_i g sig
    have hframe := (hg g rfl).frame (hsig sig rfl) depth
    have hret := (hsig sig rfl).ret
    have hbody : Keeps d (Sound d) (checkBody g sig depth) :=
      (holds_checkBlock hd (hg g rfl).body hframe (by simpa using hret)).bind fun ty _ =>
        keeps_checkResult hd _ _ ty hret
    exact hbody.bind fun _ => keeps_modify fun _ hs => { hs with }
  · exact keeps_pure

theorem establishes_sound (hd : d.Plain) : Establishes d (Sound d) fun _ _ => True where
  keeps := keeps_checkFunction hd
  taken _ hs := { hs with }
  congr _ _ _ _ _ _ _ := trivial
  holds _ _ _ _ _ _ _ _ _ _ _ := trivial

end Typing

/-! ### Programs without type parameters -/

theorem Ty.Proper.hasParam {t : Ty} (h : t.Proper) : t.hasParam = false := by
  induction t with
  | list t ih => exact ih h
  | param => cases h
  | _ => rfl

theorem Ty.Known.hasParam {t : Ty} (h : t.Known) : t.hasParam = false := by
  rcases h with rfl | h
  · rfl
  · exact Ty.Proper.hasParam h

def FunctionSig.types (sig : FunctionSig) : List Ty := sig.ret :: sig.params.map (·.ty)

def Origin.types (origin : Option Origin) : List Ty := (origin.map (·.args)).getD []

def StructSig.types (sig : StructSig) : List Ty := sig.fields.map (·.ty) ++ Origin.types sig.origin

def EnumSig.types (sig : EnumSig) : List Ty :=
  sig.variants.filterMap (·.payload) ++ Origin.types sig.origin

/-- All types that a program has, in its signatures, at its nodes and in its constants. -/
inductive CheckedProgram.HasType (p : CheckedProgram) : Ty → Prop where
  | function {name sig ty} : p.signatures.functions.get? name = some sig → ty ∈ sig.types → HasType p ty
  | struct {name sig ty} : p.signatures.structs.get? name = some sig → ty ∈ sig.types → HasType p ty
  | enum {name sig ty} : p.signatures.enums.get? name = some sig → ty ∈ sig.types → HasType p ty
  | expr {id ty} : p.resolutions.exprTypes.get? id = some ty → HasType p ty
  | bind {id ty} : p.resolutions.letTypes.get? id = some ty → HasType p ty
  | const {name c} : p.consts.get? name = some c → HasType p c.ty

/-- The functions are those with a signature, calls stay among them, and nothing is generic. -/
structure CheckedProgram.Closed (p : CheckedProgram) : Prop where
  signed : ∀ name, name ∈ p.functions ↔ name ∈ p.signatures.functions
  called : ∀ id name, p.resolutions.calls.get? id = some (.function name) → name ∈ p.functions
  plain : ∀ name f, p.functions.get? name = some f → f.decl.typeParams = []
  types : ∀ ty, p.HasType ty → ty.hasParam = false

namespace Typing

theorem done_of_finishedConsts {consts : Std.TreeMap QualName (Progress CheckedConst)} {name : QualName}
    {c : CheckedConst} (h : (finishedConsts consts).get? name = some c) : consts.get? name = some (.done c) := by
  rw [finishedConsts, Std.TreeMap.get?_eq_getElem?, Std.TreeMap.getElem?_filterMap'] at h
  obtain ⟨progress, hprogress, hc⟩ := Option.bind_eq_some_iff.1 h
  rw [Std.TreeMap.get?_eq_getElem?, hprogress]
  cases progress with
  | started => cases hc
  | done value =>
    cases hc
    rfl

section Last

variable {d : Declarations} {s : State}

theorem Sound.known (h : Sound d s) {ty : Ty} (hty : s.program.HasType ty) : ty.Known := by
  have horigin {origin : Option Origin} (hsound : ∀ o ∈ origin, o.Sound) {ty : Ty}
      (hmem : ty ∈ Origin.types origin) : ty.Proper := by
    cases origin with
    | none => cases hmem
    | some o => exact hsound o rfl ty hmem
  cases hty with
  | function hsig hmem =>
    have hsig := h.signatures _ _ hsig
    rcases mem_cons.1 hmem with rfl | hmem
    · exact hsig.ret.known
    · obtain ⟨param, hparam, rfl⟩ := mem_map.1 hmem
      exact (hsig.params param hparam).known
  | struct hsig hmem =>
    have hsig := h.structs _ _ hsig
    rcases mem_append.1 hmem with hmem | hmem
    · obtain ⟨field, hfield, rfl⟩ := mem_map.1 hmem
      exact (hsig.fields field hfield).known
    · exact (horigin hsig.origin hmem).known
  | enum hsig hmem =>
    have hsig := h.enums _ _ hsig
    rcases mem_append.1 hmem with hmem | hmem
    · obtain ⟨v, hv, hpayload⟩ := mem_filterMap.1 hmem
      exact (hsig.variants v hv _ hpayload).known
    · exact (horigin hsig.origin hmem).known
  | expr hty => exact h.exprTypes _ _ hty
  | bind hty => exact (h.letTypes _ _ hty).known
  | const hc => exact (h.consts _ _ (done_of_finishedConsts hc)).ty.known

variable {declares : QualName → FunctionDef → Prop} {I : State → Prop} {Q : State → CheckedFunction → Prop}

theorem Underway.checked_iff (h : Underway declares I Q [] s) (hdone : s.pending = []) (name : QualName) :
    name ∈ s.checked ↔ s.Signed name := by
  have hwaits := h.waiting name
  rw [hdone] at hwaits
  simp only [append_nil, not_mem_nil, false_iff, not_and] at hwaits
  rw [Std.TreeMap.mem_iff_isSome_getElem?, ← Std.TreeMap.get?_eq_getElem?]
  constructor
  · intro hchecked
    obtain ⟨f, hf⟩ := Option.isSome_iff_exists.1 hchecked
    obtain ⟨g, hg, hplain, -⟩ := h.checked name f hf
    exact h.linked.signed name g hg hplain
  · exact fun hsigned => Option.isSome_iff_ne_none.2 (hwaits hsigned)

theorem Underway.closed (h : Underway declares (Sound d) Q [] s) (hdone : s.pending = []) : s.program.Closed where
  signed name := by
    rw [show name ∈ s.program.functions ↔ _ from h.checked_iff hdone name, State.Signed,
      Std.TreeMap.mem_iff_isSome_getElem?]
    rfl
  called id name hcall := (h.checked_iff hdone name).2 (h.calls id name hcall)
  plain name f hf := by
    obtain ⟨g, -, hplain, rfl⟩ := h.checked name f hf
    exact hplain
  types _ hty := (h.holds.known hty).hasParam

end Last

/-- **An accepted program is closed and has no type parameters.** -/
theorem closed_of_check {files : List SourceFile} {p : CheckedProgram}
    (h : SourceFile.check files = .ok p) : p.Closed := by
  obtain ⟨c, n, hmakes⟩ := exists_makes_of_check h
  have hlast := hmakes.underway hmakes.sound (establishes_sound hmakes.plain)
  exact hmakes.program ▸ hlast.1.closed hlast.2

/-- A generic function that calls another one, and an instance of a generic struct. -/
def boxedTwice : SourceFile :=
  ⟨⟨"app/main.kl"⟩, "struct Box[T] { value: T }
fn open[T](box: Box[T]) -> T { box.value }
fn reopen[T](value: T) -> T { open(Box { value: value }) }
const LIMIT: u8 = 9;
fn main() -> u8 { let last = reopen(LIMIT); last }"⟩

set_option maxRecDepth 10000 in
theorem closed_of_check_boxedTwice :
    ∃ p, SourceFile.check [boxedTwice] = .ok p ∧ p.functions.size = 3 ∧ p.Closed := by
  obtain ⟨p, ir, haccepted, hsize⟩ := Lowering.accepted_of_chars boxedTwice _ _
    (fun p _ => p.functions.size == 3) rfl rfl (by decide +kernel)
  exact ⟨p, haccepted.checked, by simpa using hsize, closed_of_check haccepted.checked⟩

end Typing
end Keel
