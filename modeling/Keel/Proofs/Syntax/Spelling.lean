/-
# How names are spelled

The written form of a name joins its parts by `::`.  It can be read back if the parts
before the last are words, and the last one starts with a word and does not go on with a
colon: words end where the first other character stands.  So different names are written
differently (`QualName.eq_of_text_eq`).

Names like `Pair[T=app::Point]` have colons inside, but only behind the bracket.
-/
import Keel.Name
import Keel.Token.Scan

namespace Keel

open List Scan

/-! ### Words -/

def isWord (text : String) : Bool :=
  match text.toList with
  | [] => false
  | c :: rest => isWordStart c && rest.all isWordPart

theorem isWordPart_of_isWord {word : String} (h : isWord word) : ∀ c ∈ word.toList, isWordPart c = true := by
  unfold isWord at h
  split at h
  · cases h
  · rename_i c rest hword
    obtain ⟨hc, hrest⟩ := Bool.and_eq_true_iff.1 h
    rw [hword]
    refine forall_mem_cons.2 ⟨?_, all_eq_true.1 hrest⟩
    rw [isWordPart, hc, Bool.true_or]

/-- A word, and what follows does not belong to it and is no colon. -/
def Headed (name : String) : Prop :=
  ∃ word tail : String, name = word ++ tail ∧ isWord word ∧
    ∀ c ∈ tail.toList.head?, isWordPart c = false ∧ c ≠ ':'

theorem headed_of_isWord {word : String} (h : isWord word) : Headed word :=
  ⟨word, "", by simp, h, by simp⟩

theorem Headed.append {name rest : String} (h : Headed name)
    (hrest : ∀ c ∈ rest.toList.head?, isWordPart c = false ∧ c ≠ ':') : Headed (name ++ rest) := by
  obtain ⟨word, tail, rfl, hword, htail⟩ := h
  refine ⟨word, tail ++ rest, String.append_assoc, hword, fun c hc => ?_⟩
  rw [String.toList_append] at hc
  cases htext : tail.toList with
  | nil => exact hrest c (by simpa [htext] using hc)
  | cons first more => exact htail c (by simpa [htext] using hc)

/-- A text splits in one way into what passes a test and a rest that starts otherwise. -/
theorem append_inj_of_head {p : Char → Bool} {a a' rest rest' : List Char} (ha : ∀ c ∈ a, p c)
    (ha' : ∀ c ∈ a', p c) (hrest : ∀ c ∈ rest.head?, p c = false)
    (hrest' : ∀ c ∈ rest'.head?, p c = false) (h : a ++ rest = a' ++ rest') : a = a' ∧ rest = rest' := by
  have htake {a rest : List Char} (ha : ∀ c ∈ a, p c) (hrest : ∀ c ∈ rest.head?, p c = false) :
      (a ++ rest).takeWhile p = a := by
    rw [takeWhile_append_of_pos ha]
    cases rest with
    | nil => simp
    | cons c _ => simp [hrest c rfl]
  have heq : a = a' := by rw [← htake ha hrest, h, htake ha' hrest']
  subst heq
  exact ⟨rfl, append_cancel_left h⟩

/-! ### Names -/

def joined : List String → String → List Char
  | [], name => name.toList
  | word :: words, name => word.toList ++ ':' :: ':' :: joined words name

theorem joined_inj {words words' : List String} {name name' : String} (hwords : ∀ w ∈ words, isWord w)
    (hwords' : ∀ w ∈ words', isWord w) (hname : Headed name) (hname' : Headed name')
    (h : joined words name = joined words' name') : words = words' ∧ name = name' := by
  have hcolon (rest : List Char) : ∀ c ∈ (':' :: rest).head?, isWordPart c = false := by
    rintro c ⟨⟩
    rfl
  -- A last part is no word with a colon after it.
  have hlast {name word : String} {rest : List Char} (hname : Headed name) (hword : isWord word)
      (h : name.toList = word.toList ++ ':' :: rest) : False := by
    obtain ⟨head, tail, rfl, hhead, htail⟩ := hname
    rw [String.toList_append] at h
    obtain ⟨-, htext⟩ := append_inj_of_head (isWordPart_of_isWord hhead) (isWordPart_of_isWord hword)
      (fun c hc => (htail c hc).1) (hcolon rest) h
    exact (htail ':' (by rw [htext]; rfl)).2 rfl
  induction words generalizing words' with
  | nil =>
    cases words' with
    | nil => exact ⟨rfl, String.toList_inj.1 h⟩
    | cons word' words' => exact (hlast hname (hwords' word' mem_cons_self) h).elim
  | cons word words ih =>
    obtain ⟨hword, hwords⟩ := forall_mem_cons.1 hwords
    cases words' with
    | nil => exact (hlast hname' hword h.symm).elim
    | cons word' words' =>
      obtain ⟨hword', hwords'⟩ := forall_mem_cons.1 hwords'
      obtain ⟨hhead, hrest⟩ := append_inj_of_head (isWordPart_of_isWord hword)
        (isWordPart_of_isWord hword') (hcolon _) (hcolon _) h
      obtain ⟨rfl, hname⟩ := ih hwords hwords' (List.cons.inj (List.cons.inj hrest).2).2
      exact ⟨by rw [String.toList_inj.1 hhead], hname⟩

structure ModulePath.Worded (m : ModulePath) : Prop where
  package : isWord m.package
  segments : ∀ segment ∈ m.segments, isWord segment

/-- A module of words, and a name in it that starts with a word. -/
structure QualName.Worded (q : QualName) : Prop where
  module : q.module.Worded
  name : Headed q.name

theorem QualName.toList_text (q : QualName) :
    q.text.toList = joined (q.module.package :: q.module.segments) q.name := by
  have hjoin (words : List String) (first : String) :
      (String.intercalate "::" (first :: words)).toList ++ ':' :: ':' :: q.name.toList =
        joined (first :: words) q.name := by
    induction words generalizing first with
    | nil => simp [joined]
    | cons second words ih =>
      rw [String.intercalate_cons_cons, joined, ← ih second]
      simp
  rw [QualName.text, ModulePath.text, ← hjoin]
  simp

/-- **Different names are written differently.** -/
theorem QualName.eq_of_text_eq {q q' : QualName} (h : q.Worded) (h' : q'.Worded)
    (heq : q.text = q'.text) : q = q' := by
  have hparts {q : QualName} (h : q.Worded) : ∀ w ∈ q.module.package :: q.module.segments, isWord w :=
    forall_mem_cons.2 ⟨h.module.package, h.module.segments⟩
  have hjoined := q.toList_text ▸ q'.toList_text ▸ congrArg String.toList heq
  obtain ⟨hmodule, hname⟩ := joined_inj (hparts h) (hparts h') h.name h'.name hjoined
  obtain ⟨hpackage, hsegments⟩ := List.cons.inj hmodule
  obtain ⟨⟨package, segments⟩, name⟩ := q
  obtain ⟨⟨package', segments'⟩, name'⟩ := q'
  cases hpackage
  cases hsegments
  cases hname
  rfl

/-! ### Modules of files -/

/-- The names of a path are words, that of the file without its extension. -/
def SourcePath.Worded (path : SourcePath) : Prop :=
  (∀ name ∈ path.names.dropLast, isWord name) ∧
    ∀ name ∈ path.names.getLast?, isWord (SourcePath.stem name)

instance (path : SourcePath) : Decidable path.Worded := inferInstanceAs (Decidable (_ ∧ _))

theorem ModulePath.worded_ofFile {path : SourcePath} (h : path.Worded) : (ModulePath.ofFile path).Worded := by
  obtain ⟨hbefore, hlast⟩ := h
  unfold ModulePath.ofFile
  extract_lets names parts
  have hparts : ∀ part ∈ parts, isWord part := by
    unfold parts
    split
    · exact forall_mem_nil _
    · rename_i last before hnames
      have hpath : path.names = before.reverse ++ [last] := by
        rw [← reverse_cons, ← hnames, reverse_reverse]
      rw [hpath] at hbefore hlast
      have hinit : ∀ part ∈ before.reverse, isWord part := by simpa using hbefore
      dsimp only
      split
      · exact hinit
      · rw [reverse_cons]
        exact forall_mem_append.2 ⟨hinit, forall_mem_singleton.2 (hlast last (by simp))⟩
  clear_value parts
  cases parts with
  | nil => exact ⟨by decide, forall_mem_nil _⟩
  | cons package segments =>
    obtain ⟨hpackage, hsegments⟩ := forall_mem_cons.1 hparts
    exact ⟨hpackage, hsegments⟩

end Keel
