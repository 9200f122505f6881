/-
# What the name of an instance tells

The name of an instance spells out its arguments, `Pair[T=i64,U=List[app::Box[T=bool]]]`, and an
argument may be an instance itself.  Commas and equal signs occur at all levels, but brackets come
in pairs, and a type ends where a comma or a bracket stands that is not inside one of its own.  So a
type can be read off the front of a text (`Ty.eq_of_canonical_append`), a key tells its arguments
one by one, and an instance is asked for again only by the same arguments (`eq_of_sameInstance`).
-/
import Std.Data.String.ToInt
import Keel.Proofs.Syntax.Spelling
import Keel.Proofs.Typing.Runs

namespace Keel

open List Scan

/-! ### Brackets -/

/-- Every bracket has its partner. -/
inductive Balanced : List Char → Prop
  | nil : Balanced []
  | char {c : Char} {rest : List Char} : c ≠ '[' → c ≠ ']' → Balanced rest → Balanced (c :: rest)
  | nested {inner rest : List Char} : Balanced inner → Balanced rest → Balanced ('[' :: (inner ++ ']' :: rest))

namespace Balanced

variable {text text' rest rest' : List Char}

theorem append (h : Balanced text) (h' : Balanced text') : Balanced (text ++ text') := by
  induction h with
  | nil => exact h'
  | char hopen hclose _ ih => exact .char hopen hclose ih
  | nested hinner _ _ ih =>
    rw [cons_append, append_assoc, cons_append]
    exact .nested hinner ih

theorem brackets (h : Balanced text) : Balanced ('[' :: (text ++ [']'])) := .nested h .nil

theorem of_forall_ne (h : ∀ c ∈ text, c ≠ '[' ∧ c ≠ ']') : Balanced text := by
  induction text with
  | nil => exact .nil
  | cons c text ih =>
    obtain ⟨hc, htext⟩ := forall_mem_cons.1 h
    exact .char hc.1 hc.2 (ih htext)

/-- The first bracket that closes more than was opened is behind the balanced part. -/
theorem append_inj (h : Balanced text) (h' : Balanced text')
    (heq : text ++ ']' :: rest = text' ++ ']' :: rest') : text = text' ∧ rest = rest' := by
  induction h generalizing text' rest rest' with
  | nil =>
    cases h' with
    | nil => exact ⟨rfl, (List.cons.inj heq).2⟩
    | char _ hclose _ => exact absurd (List.cons.inj heq).1.symm hclose
    | nested _ _ => cases heq
  | char hopen hclose _ ih =>
    cases h' with
    | nil => exact absurd (List.cons.inj heq).1 hclose
    | char _ _ h' =>
      rw [cons_append, cons_append, List.cons.injEq] at heq
      obtain ⟨rfl, htail⟩ := heq
      obtain ⟨rfl, hrest⟩ := ih h' htail
      exact ⟨rfl, hrest⟩
    | nested _ _ => exact absurd (List.cons.inj heq).1 hopen
  | nested _ _ ihinner ihrest =>
    cases h' with
    | nil => cases heq
    | char hopen _ _ => exact absurd (List.cons.inj heq).1.symm hopen
    | nested hinner' hrest' =>
      simp only [cons_append, append_assoc, List.cons.injEq, true_and] at heq
      obtain ⟨rfl, htail⟩ := ihinner hinner' heq
      obtain ⟨rfl, hrest⟩ := ihrest hrest' htail
      exact ⟨rfl, hrest⟩

end Balanced

theorem isWordPart_ne_bracket (h : isWordPart c = true) : c ≠ '[' ∧ c ≠ ']' := by
  constructor
  · rintro rfl
    cases h
  · rintro rfl
    cases h

theorem balanced_of_isWord {word : String} (h : isWord word) : Balanced word.toList :=
  .of_forall_ne fun c hc => isWordPart_ne_bracket (isWordPart_of_isWord h c hc)

/-! ### Types that are spelled out -/

/-- Nothing, or balanced text in brackets. -/
def Bracketed (text : List Char) : Prop := text = [] ∨ ∃ body, Balanced body ∧ text = '[' :: (body ++ [']'])

/-- A name in a module of words: a word, and in brackets behind it perhaps the key of an instance. -/
structure QualName.Spelled (q : QualName) : Prop where
  module : q.module.Worded
  name : ∃ word key, isWord word ∧ Bracketed key ∧ q.name.toList = word.toList ++ key

/-- A type that can be an argument.  Its names are spelled out, `enums` tells which of them are names
of enums, and its type parameters are words that do not mean a type of the language. -/
def Ty.Spelled (enums : QualName → Bool) : Ty → Prop
  | .struct name => name.Spelled ∧ enums name = false
  | .enum name => name.Spelled ∧ enums name = true
  | .list t => t.Spelled enums
  | .param name => isWord name ∧ Typing.simpleType? ∅ [name] = none
  | .error | .untyped => False
  | .unit | .bool | .int _ | .str | .range _ _ _ => True

def Ends (rest : List Char) : Prop := ∀ c ∈ rest.head?, c = ',' ∨ c = ']'

variable {c : Char} {rest rest' : List Char}

theorem ends_nil : Ends [] := by simp [Ends]

theorem ends_cons (h : c = ',' ∨ c = ']') : Ends (c :: rest) := by
  rintro _ ⟨⟩
  exact h

theorem Ends.head (h : Ends rest) : ∀ c ∈ rest.head?, isWordPart c = false ∧ c ≠ ':' := by
  intro c hc
  rcases h c hc with rfl | rfl <;> decide

theorem Ends.ne_cons {tail : List Char} (h : Ends rest) (heq : rest = c :: tail)
    (hc : c ≠ ',' ∧ c ≠ ']' := by decide) : False := by
  subst heq
  rcases h c rfl with hcomma | hclose
  · exact hc.1 hcomma
  · exact hc.2 hclose

theorem Bracketed.balanced {text : List Char} (h : Bracketed text) : Balanced text := by
  rcases h with rfl | ⟨body, hbody, rfl⟩
  · exact .nil
  · exact hbody.brackets

theorem Bracketed.head_append {key : List Char} (h : Bracketed key) (hrest : Ends rest) :
    ∀ c ∈ (key ++ rest).head?, isWordPart c = false ∧ c ≠ ':' := by
  rcases h with rfl | ⟨body, -, rfl⟩
  · exact hrest.head
  · rintro c ⟨⟩
    decide

theorem Bracketed.append_inj {key key' : List Char} (h : Bracketed key) (h' : Bracketed key')
    (hrest : Ends rest) (hrest' : Ends rest') (heq : key ++ rest = key' ++ rest') : key = key' ∧ rest = rest' := by
  rcases h with rfl | ⟨body, hbody, rfl⟩ <;> rcases h' with rfl | ⟨body', hbody', rfl⟩
  · exact ⟨rfl, heq⟩
  · exact (hrest.ne_cons heq).elim
  · exact (hrest'.ne_cons heq.symm).elim
  · simp only [cons_append, append_assoc, nil_append, List.cons.injEq, true_and] at heq
    obtain ⟨rfl, htail⟩ := hbody.append_inj hbody' heq
    exact ⟨rfl, htail⟩

theorem word_append_inj {word word' : String} (h : isWord word) (h' : isWord word')
    (hrest : ∀ c ∈ rest.head?, isWordPart c = false) (hrest' : ∀ c ∈ rest'.head?, isWordPart c = false)
    (heq : word.toList ++ rest = word'.toList ++ rest') : word = word' ∧ rest = rest' := by
  obtain ⟨hword, hrest⟩ := append_inj_of_head (isWordPart_of_isWord h) (isWordPart_of_isWord h') hrest hrest' heq
  exact ⟨String.toList_inj.1 hword, hrest⟩

/-! ### Names -/

theorem joined_append (words : List String) (name : String) (rest : List Char) :
    joined words name ++ rest = joined words (name ++ String.ofList rest) := by
  induction words with
  | nil => simp [joined]
  | cons word words ih => simp [joined, ih]

namespace QualName

variable {q q' : QualName}

theorem Spelled.headed (h : q.Spelled) (hrest : Ends rest) : Headed (q.name ++ String.ofList rest) := by
  obtain ⟨-, word, key, hword, hkey, hname⟩ := h
  refine ⟨word, String.ofList (key ++ rest), ?_, hword, ?_⟩
  · rw [← String.toList_inj]
    simp [hname]
  · rw [String.toList_ofList]
    exact hkey.head_append hrest

/-- **A name can be read off the front of a text.** -/
theorem eq_of_text_append (h : q.Spelled) (h' : q'.Spelled) (hrest : Ends rest) (hrest' : Ends rest')
    (heq : q.text.toList ++ rest = q'.text.toList ++ rest') : q = q' ∧ rest = rest' := by
  have hparts {q : QualName} (h : q.Spelled) : ∀ w ∈ q.module.package :: q.module.segments, isWord w :=
    forall_mem_cons.2 ⟨h.module.package, h.module.segments⟩
  rw [toList_text, toList_text, joined_append, joined_append] at heq
  obtain ⟨hmodule, hname⟩ :=
    joined_inj (hparts h) (hparts h') (h.headed hrest) (h'.headed hrest') heq
  obtain ⟨-, word, key, hword, hkey, htext⟩ := h
  obtain ⟨-, word', key', hword', hkey', htext'⟩ := h'
  -- Behind the same module stand the same word and the same key.
  rw [← String.toList_inj, String.toList_append, String.toList_append, htext, htext',
    String.toList_ofList, String.toList_ofList, append_assoc, append_assoc] at hname
  obtain ⟨rfl, htail⟩ := word_append_inj hword hword' (fun c hc => (hkey.head_append hrest c hc).1)
    (fun c hc => (hkey'.head_append hrest' c hc).1) hname
  obtain ⟨rfl, hends⟩ := hkey.append_inj hkey' hrest hrest' htail
  obtain ⟨⟨package, segments⟩, name⟩ := q
  obtain ⟨⟨package', segments'⟩, name'⟩ := q'
  cases hmodule
  cases String.toList_inj.1 (htext.trans htext'.symm)
  exact ⟨rfl, hends⟩

theorem balanced_joined {words : List String} (hwords : ∀ w ∈ words, isWord w) {name : String}
    (hname : Balanced name.toList) : Balanced (joined words name) := by
  induction words with
  | nil => exact hname
  | cons word words ih =>
    obtain ⟨hword, hwords⟩ := forall_mem_cons.1 hwords
    exact (balanced_of_isWord hword).append (.char (by decide) (by decide) (.char (by decide) (by decide) (ih hwords)))

theorem Spelled.balanced (h : q.Spelled) : Balanced q.text.toList := by
  obtain ⟨hmodule, word, key, hword, hkey, hname⟩ := h
  rw [toList_text]
  refine balanced_joined (forall_mem_cons.2 ⟨hmodule.package, hmodule.segments⟩) ?_
  rw [hname]
  exact (balanced_of_isWord hword).append hkey.balanced

end QualName

/-! ### Numbers -/

namespace IntKind

theorem name_injective {k k' : IntKind} (h : k.name = k'.name) : k = k' := by
  have := ofName?_name k
  rw [h, ofName?_name] at this
  exact (Option.some.inj this).symm

theorem isWord_name (k : IntKind) : isWord k.name := by cases k <;> decide

theorem name_ne_list (k : IntKind) : k.name ≠ "List" := by cases k <;> decide

end IntKind

/-- A digit or a minus sign. -/
def isNumeral (c : Char) : Bool := c.isDigit || c == '-'

theorem isNumeral_of_mem_toString {value : Int} : ∀ c ∈ (toString value).toList, isNumeral c = true := by
  have hdigits (n : Nat) : ∀ c ∈ n.repr.toList, isNumeral c = true := by
    intro c hc
    rw [Nat.repr_eq_ofList_toDigits, String.toList_ofList] at hc
    rw [isNumeral, Nat.isDigit_of_mem_toDigits (by decide) (by decide) hc, Bool.true_or]
  cases value with
  | ofNat n => exact hdigits n
  | negSucc n =>
    intro c hc
    rw [show toString (Int.negSucc n) = "-" ++ n.succ.repr from rfl, String.toList_append] at hc
    rcases mem_append.1 hc with hc | hc
    · cases mem_singleton.1 hc
      rfl
    · exact hdigits _ c hc

theorem balanced_toString (value : Int) : Balanced (toString value).toList :=
  .of_forall_ne fun c hc => by
    have := isNumeral_of_mem_toString c hc
    constructor
    · rintro rfl
      cases this
    · rintro rfl
      cases this

theorem numeral_append_inj {value value' : Int}
    (hrest : ∀ c ∈ rest.head?, isNumeral c = false) (hrest' : ∀ c ∈ rest'.head?, isNumeral c = false)
    (heq : (toString value).toList ++ rest = (toString value').toList ++ rest') :
    value = value' ∧ rest = rest' := by
  obtain ⟨htext, hrest⟩ :=
    append_inj_of_head isNumeral_of_mem_toString isNumeral_of_mem_toString hrest hrest' heq
  exact ⟨Int.repr_inj.1 (String.toList_inj.1 htext), hrest⟩

/-! ### Types -/

namespace Ty

variable {enums : QualName → Bool} {a b t : Ty}

theorem toList_canonical_range (base : IntKind) (low high : Int) : (range base low high).canonical.toList =
      base.name.toList ++ '[' :: (((toString low).toList ++ "..=".toList ++ (toString high).toList) ++ [']']) := by
  simp [canonical, text, rangeText, String.toList_append]

theorem toList_canonical_list (elem : Ty) :
    (list elem).canonical.toList = "List".toList ++ '[' :: (elem.canonical.toList ++ [']']) := by
  simp [canonical, String.toList_append]

/-- How a type is written: a word, and what stands behind it. -/
inductive Written (enums : QualName → Bool) : Ty → String → List Char → Prop
  /-- A word of the language. -/
  | builtin {t : Ty} : Typing.simpleType? ∅ [t.canonical] = some t → Written enums t t.canonical []
  | param {name : String} : Typing.simpleType? ∅ [name] = none → Written enums (.param name) name []
  | range (base : IntKind) (low high : Int) :
    Written enums (.range base low high) base.name
      ('[' :: (((toString low).toList ++ "..=".toList ++ (toString high).toList) ++ [']']))
  | list {elem : Ty} : elem.Spelled enums →
    Written enums (.list elem) "List" ('[' :: (elem.canonical.toList ++ [']']))
  | named {name : QualName} : name.Spelled →
    Written enums (if enums name then .enum name else .struct name) name.module.package
      (':' :: ':' :: joined name.module.segments name.name)

theorem Spelled.written (h : t.Spelled enums) : ∃ word tail,
    Written enums t word tail ∧ isWord word ∧ t.canonical.toList = word.toList ++ tail := by
  have hname (name : QualName) : name.text.toList =
      name.module.package.toList ++ ':' :: ':' :: joined name.module.segments name.name := by
    rw [QualName.toList_text, joined]
  have hword {t : Ty} (h : Typing.simpleType? ∅ [t.canonical] = some t) (hword : isWord t.canonical) :
      ∃ word tail, Written enums t word tail ∧ isWord word ∧ t.canonical.toList = word.toList ++ tail :=
    ⟨t.canonical, [], .builtin h, hword, (append_nil _).symm⟩
  cases t with
  | error | untyped => cases h
  | unit | bool | str => exact hword (by decide) (by decide)
  | int kind => exact hword (by cases kind <;> decide) kind.isWord_name
  | param name => exact ⟨name, [], .param h.2, h.1, (append_nil _).symm⟩
  | range base low high =>
    exact ⟨base.name, _, .range base low high, base.isWord_name, toList_canonical_range base low high⟩
  | list elem => exact ⟨"List", _, .list h, by decide, toList_canonical_list elem⟩
  | struct name | enum name =>
    have hwritten : Written enums (if enums name then .enum name else .struct name) _ _ := .named h.1
    rw [h.2] at hwritten
    exact ⟨_, _, hwritten, h.1.module.package, hname name⟩

theorem Written.head {word : String} {tail : List Char} (h : Written enums t word tail) (hrest : Ends rest) :
    ∀ c ∈ (tail ++ rest).head?, isWordPart c = false := by
  cases h with
  | builtin _ | param _ => exact fun c hc => (hrest.head c hc).1
  | range | list _ | named _ => rintro c ⟨⟩; decide

/-- Whether the type is told by the text, whatever ends it. -/
def ReadOff (enums : QualName → Bool) (a : Ty) : Prop :=
  ∀ ⦃b : Ty⦄ ⦃rest rest' : List Char⦄, b.Spelled enums → Ends rest → Ends rest' →
    a.canonical.toList ++ rest = b.canonical.toList ++ rest' → a = b ∧ rest = rest'

theorem Spelled.readOff_of_elem (ha : a.Spelled enums) (helem : ∀ elem, a = .list elem → ReadOff enums elem) :
    ReadOff enums a := by
  intro b rest rest' hb hrest hrest' heq
  obtain ⟨word, tail, hwa, hworda, htexta⟩ := ha.written
  obtain ⟨word', tail', hwb, hwordb, htextb⟩ := hb.written
  rw [htexta, htextb, append_assoc, append_assoc] at heq
  obtain ⟨hword, htail⟩ := word_append_inj hworda hwordb (hwa.head hrest) (hwb.head hrest') heq
  cases hwa with
  | builtin hsimple =>
    cases hwb with
    | builtin hsimple' =>
      rw [← hword] at hsimple'
      exact ⟨Option.some.inj (hsimple.symm.trans hsimple'), htail⟩
    | param hnone =>
      rw [← hword, hsimple] at hnone
      cases hnone
    | range | list _ | named _ => exact (hrest.ne_cons htail).elim
  | param hnone =>
    cases hwb with
    | builtin hsimple =>
      rw [hword, hsimple] at hnone
      cases hnone
    | param _ =>
      rw [hword]
      exact ⟨rfl, htail⟩
    | range | list _ | named _ => exact (hrest.ne_cons htail).elim
  | range base low high =>
    cases hwb with
    | builtin _ | param _ => exact (hrest'.ne_cons htail.symm).elim
    | range base' low' high' =>
      obtain rfl := IntKind.name_injective hword
      simp only [cons_append, append_assoc, nil_append, List.cons.injEq, true_and] at htail
      obtain ⟨rfl, hhigh⟩ := numeral_append_inj (by rintro c ⟨⟩; decide) (by rintro c ⟨⟩; decide) htail
      rw [append_cancel_left_eq] at hhigh
      obtain ⟨rfl, hclose⟩ := numeral_append_inj (by rintro c ⟨⟩; decide) (by rintro c ⟨⟩; decide) hhigh
      exact ⟨rfl, (List.cons.inj hclose).2⟩
    | list _ => exact (base.name_ne_list hword).elim
    | named _ => cases htail
  | list helem' =>
    cases hwb with
    | builtin _ | param _ => exact (hrest'.ne_cons htail.symm).elim
    | range base => exact (base.name_ne_list hword.symm).elim
    | list hspelled =>
      simp only [cons_append, append_assoc, nil_append, List.cons.injEq, true_and] at htail
      obtain ⟨rfl, hclose⟩ := helem _ rfl hspelled (ends_cons (.inr rfl)) (ends_cons (.inr rfl)) htail
      exact ⟨rfl, (List.cons.inj hclose).2⟩
    | named _ => cases htail
  | @named name hname =>
    cases hwb with
    | builtin _ | param _ => exact (hrest'.ne_cons htail.symm).elim
    | range | list _ => cases htail
    | @named name' hname' =>
      have htext : name.text.toList ++ rest = name'.text.toList ++ rest' := by
        simp only [QualName.toList_text, joined, append_assoc]
        exact heq
      obtain ⟨rfl, hrest⟩ := QualName.eq_of_text_append hname hname' hrest hrest' htext
      exact ⟨rfl, hrest⟩

theorem Spelled.readOff (ha : a.Spelled enums) : ReadOff enums a := by
  induction a with
  | list elem ih =>
    refine ha.readOff_of_elem ?_
    rintro _ ⟨⟩
    exact ih ha
  | _ => exact ha.readOff_of_elem (by rintro _ ⟨⟩)

theorem Spelled.balanced (h : t.Spelled enums) : Balanced t.canonical.toList := by
  induction t with
  | error | untyped => cases h
  | struct name | enum name => exact h.1.balanced
  | param name => exact balanced_of_isWord h.1
  | int kind => exact balanced_of_isWord kind.isWord_name
  | unit => exact balanced_of_isWord (show isWord "unit" by decide)
  | bool => exact balanced_of_isWord (show isWord "bool" by decide)
  | str => exact balanced_of_isWord (show isWord "string" by decide)
  | range base low high =>
    rw [toList_canonical_range]
    have hdots : Balanced ['.', '.', '='] :=
      .char (by decide) (by decide) (.char (by decide) (by decide) (.char (by decide) (by decide) .nil))
    exact (balanced_of_isWord base.isWord_name).append
      (((balanced_toString low).append hdots).append (balanced_toString high)).brackets
  | list elem ih =>
    rw [toList_canonical_list]
    exact (balanced_of_isWord (by decide)).append (ih h).brackets

end Ty

namespace Typing

variable {enums : QualName → Bool} {params : List String} {args args' : List Ty} {base : QualName}

/-! ### Keys -/

def moreKey (params : List String) (args : List Ty) : List Char :=
  if params = [] then [] else ',' :: (instanceKey params args).toList

theorem toList_instanceKey_cons (p : String) (a : Ty) (hlen : args.length = params.length) :
    (instanceKey (p :: params) (a :: args)).toList =
      p.toList ++ '=' :: (a.canonical.toList ++ moreKey params args) := by
  cases params with
  | nil => simp [instanceKey, moreKey]
  | cons p' params =>
    cases args with
    | nil => cases hlen
    | cons a' args => simp [instanceKey, moreKey, String.intercalate_cons_cons]

theorem ends_moreKey : Ends (moreKey params args) := by
  unfold moreKey
  split
  · exact ends_nil
  · exact ends_cons (.inl rfl)

/-- **A key tells its arguments.** -/
theorem instanceKey_inj (hargs : ∀ t ∈ args, t.Spelled enums) (hargs' : ∀ t ∈ args', t.Spelled enums)
    (hlen : args.length = params.length) (hlen' : args'.length = params.length)
    (heq : instanceKey params args = instanceKey params args') : args = args' := by
  induction params generalizing args args' with
  | nil => rw [length_eq_zero_iff.1 hlen, length_eq_zero_iff.1 hlen']
  | cons p params ih =>
    obtain ⟨a, args, rfl⟩ := exists_cons_of_length_eq_add_one hlen
    obtain ⟨b, args', rfl⟩ := exists_cons_of_length_eq_add_one hlen'
    obtain ⟨ha, has⟩ := forall_mem_cons.1 hargs
    obtain ⟨hb, hbs⟩ := forall_mem_cons.1 hargs'
    replace hlen := Nat.succ.inj hlen
    replace hlen' := Nat.succ.inj hlen'
    rw [← String.toList_inj, toList_instanceKey_cons p a hlen, toList_instanceKey_cons p b hlen',
      append_cancel_left_eq, List.cons.injEq] at heq
    obtain ⟨rfl, hmore⟩ := ha.readOff hb ends_moreKey ends_moreKey heq.2
    unfold moreKey at hmore
    split at hmore
    case isTrue hnil =>
      cases hnil
      rw [length_eq_zero_iff.1 hlen, length_eq_zero_iff.1 hlen']
    case isFalse => rw [ih has hbs hlen hlen' (String.toList_inj.1 (List.cons.inj hmore).2)]

theorem instanceKey_eq_of_instanceName_eq (h : instanceName base params args = instanceName base params args') :
    instanceKey params args = instanceKey params args' := by
  have hname := congrArg (String.toList ∘ QualName.name) h
  simp only [Function.comp_apply, instanceName, QualName.withName, String.toList_append,
    append_cancel_right_eq, append_cancel_left_eq] at hname
  exact String.toList_inj.1 hname

theorem balanced_instanceKey (hparams : ∀ p ∈ params, isWord p) (hargs : ∀ t ∈ args, t.Spelled enums)
    (hlen : args.length = params.length) : Balanced (instanceKey params args).toList := by
  induction params generalizing args with
  | nil => exact .nil
  | cons p params ih =>
    obtain ⟨a, args, rfl⟩ := exists_cons_of_length_eq_add_one hlen
    obtain ⟨hp, hparams⟩ := forall_mem_cons.1 hparams
    obtain ⟨ha, hargs⟩ := forall_mem_cons.1 hargs
    replace hlen := Nat.succ.inj hlen
    rw [toList_instanceKey_cons p a hlen]
    refine (balanced_of_isWord hp).append (.char (by decide) (by decide) (ha.balanced.append ?_))
    unfold moreKey
    split
    · exact .nil
    · exact .char (by decide) (by decide) (ih hparams hargs hlen)

/-- The name of an instance is spelled out, so an instance can be an argument again. -/
theorem spelled_instanceName (hmodule : base.module.Worded) (hname : isWord base.name)
    (hparams : ∀ p ∈ params, isWord p) (hargs : ∀ t ∈ args, t.Spelled enums)
    (hlen : args.length = params.length) : (instanceName base params args).Spelled := by
  refine ⟨hmodule, base.name, '[' :: ((instanceKey params args).toList ++ [']']), hname,
    .inr ⟨_, balanced_instanceKey hparams hargs hlen, rfl⟩, ?_⟩
  simp [instanceName, QualName.withName, String.toList_append]

/-! ### Instances -/

theorem instantiateFunction_eq_some {d : Declarations} {s : State} {f : FunctionDecl} {depth : Nat} {site : Site}
    {name : QualName} (h : (instantiateFunction base f args depth site d s).1 = some name) :
    name = instanceName base f.decl.typeParams args := by
  have hrun : Holds d (fun _ => True) (instantiateFunction base f args depth site)
      fun found => ∀ name ∈ found, name = instanceName base f.decl.typeParams args := by
    refine (keeps_true _).bind fun _ => ?_
    split
    · exact holds_pure (by simp)
    · split
      · exact (keeps_true _).bind fun _ => holds_pure (by simp)
      · exact (keeps_true _).bind fun _ => (keeps_true _).bind fun _ => (keeps_true _).bind fun _ =>
          (keeps_true _).bind fun _ => holds_pure (by simp)
  exact (hrun s trivial).2 name h

theorem eq_instanceName_of_instantiateType {d : Declarations} {s : State} {r : Resolver} {nominal : Nominal}
    {site : Site} {ty : Ty} (hnominal : d.nominal? base = some nominal) (hty : ty ≠ .error)
    (h : (instantiateType r base args site d s).1 = ty) :
    ty = nominal.ty (instanceName base nominal.params args) := by
  have hrun : Holds d (fun _ => True) (instantiateType r base args site)
      fun ty => ty ≠ .error → ty = nominal.ty (instanceName base nominal.params args) := by
    have hreject (problem : Problem) : Holds d (fun _ => True) (reject site problem)
        fun ty => ty ≠ .error → ty = nominal.ty (instanceName base nominal.params args) :=
      (keeps_true _).bind fun _ => holds_pure fun h => (h rfl).elim
    unfold instantiateType
    refine (holds_read (P := fun d' => d' = d) rfl).bind ?_
    rintro _ rfl
    rw [hnominal]
    dsimp only
    split
    · exact (hreject _).bind fun _ h => holds_pure h
    split
    · exact holds_pure fun h => (h rfl).elim
    refine (keeps_true _).bind fun s => ?_
    split
    · exact (keeps_true _).bind fun _ => holds_pure fun _ => rfl
    split
    · exact holds_pure fun _ => rfl
    split
    · exact (hreject _).bind fun _ h => holds_pure h
    · exact (keeps_true _).bind fun _ => (keeps_true _).bind fun _ => (keeps_true _).bind fun _ =>
        holds_pure fun _ => rfl
  exact h ▸ (hrun s trivial).2 (h ▸ hty)

theorem Nominal.ty_injective {nominal : Nominal} {name name' : QualName} (h : nominal.ty name = nominal.ty name') :
    name = name' := by
  cases nominal <;> exact Ty.noConfusion h id

/-- **Instances are not conflated.**  Equal keys are made of equal arguments, so that two requests get
the same instance of a function, or of a type, only if they ask for the same arguments. -/
theorem eq_of_sameInstance (hargs : ∀ t ∈ args, t.Spelled enums) (hargs' : ∀ t ∈ args', t.Spelled enums)
    (hlen : args.length = params.length) (hlen' : args'.length = params.length) :
    (instanceKey params args = instanceKey params args' → args = args') ∧
    (∀ (d : Declarations) (s s' : State) (base : QualName) (f : FunctionDecl) (depth depth' : Nat)
      (site site' : Site) (name : QualName), f.decl.typeParams = params →
      (instantiateFunction base f args depth site d s).1 = some name →
      (instantiateFunction base f args' depth' site' d s').1 = some name → args = args') ∧
    (∀ (d : Declarations) (s s' : State) (r r' : Resolver) (base : QualName) (nominal : Nominal)
      (site site' : Site) (ty : Ty), d.nominal? base = some nominal → nominal.params = params → ty ≠ .error →
      (instantiateType r base args site d s).1 = ty →
      (instantiateType r' base args' site' d s').1 = ty → args = args') := by
  have hname {base : QualName} (h : instanceName base params args = instanceName base params args') : args = args' :=
    instanceKey_inj hargs hargs' hlen hlen' (instanceKey_eq_of_instanceName_eq h)
  refine ⟨instanceKey_inj hargs hargs' hlen hlen', ?_, ?_⟩
  · rintro d s s' base f depth depth' site site' name rfl h h'
    exact hname ((instantiateFunction_eq_some h).symm.trans (instantiateFunction_eq_some h'))
  · rintro d s s' r r' base nominal site site' ty hnominal rfl hty h h'
    have hsame := eq_instanceName_of_instantiateType hnominal hty h
    rw [eq_instanceName_of_instantiateType hnominal hty h'] at hsame
    exact hname (Nominal.ty_injective hsame.symm)

/-- `app::geo::Pair[T=…,U=…]` -/
def pairOf (a b : Ty) : Ty := .struct (instanceName ⟨⟨"app", ["geo"]⟩, "Pair"⟩ ["T", "U"] [a, b])

/-- What is asked for by `Pair[a, b]`, where `struct Pair[T, U]` is declared. -/
def askPair (a b : Ty) : Ty :=
  let pairs : Declarations :=
    { structs := (∅ : Std.TreeMap QualName (Declared StructDef)).insert ⟨⟨"app", ["geo"]⟩, "Pair"⟩
        ⟨⟨⟨"app", ["geo"]⟩, ⟨"app/geo.kl"⟩, {}⟩, ⟨"Pair", ["T", "U"], [], ⟨0, 0⟩, true⟩⟩ }
  (instantiateType (.within 1) ⟨⟨"app", ["geo"]⟩, "Pair"⟩ [a, b] ⟨⟨"app/geo.kl"⟩, ⟨0, 0⟩⟩ pairs { nextId := 0 }).1

theorem spelled_pairOf {a b : Ty} (ha : a.Spelled fun _ => false) (hb : b.Spelled fun _ => false) :
    (pairOf a b).Spelled fun _ => false :=
  ⟨spelled_instanceName ⟨by decide, by decide⟩ (by decide) (by decide)
    (forall_mem_cons.2 ⟨ha, forall_mem_singleton.2 hb⟩) rfl, rfl⟩

/-- `Pair[bool, Pair[i64[0..=5], bool]]` is not taken for `Pair[bool, Pair[i64[0..=50], bool]]`. -/
theorem eq_of_sameInstance_pair :
    (∀ t ∈ [.bool, pairOf (.range .i64 0 5) .bool], t.Spelled fun _ => false) ∧
    (∀ t ∈ [.bool, pairOf (.range .i64 0 50) .bool], t.Spelled fun _ => false) ∧
    instanceKey ["T", "U"] [.bool, pairOf (.range .i64 0 5) .bool] ≠
      instanceKey ["T", "U"] [.bool, pairOf (.range .i64 0 50) .bool] ∧
    askPair .bool (pairOf (.range .i64 0 5) .bool) = pairOf .bool (pairOf (.range .i64 0 5) .bool) ∧
    askPair .bool (pairOf (.range .i64 0 5) .bool) ≠ askPair .bool (pairOf (.range .i64 0 50) .bool) := by
  have hspelled (high : Int) : ∀ t ∈ [.bool, pairOf (.range .i64 0 high) .bool], t.Spelled fun _ => false :=
    forall_mem_cons.2 ⟨trivial, forall_mem_singleton.2 (spelled_pairOf trivial trivial)⟩
  have hpair : askPair .bool (pairOf (.range .i64 0 5) .bool) = pairOf .bool (pairOf (.range .i64 0 5) .bool) := by
    rfl
  have hlength (a b : Ty) : [a, b].length = ["T", "U"].length := rfl
  have hne : [.bool, pairOf (.range .i64 0 5) .bool] ≠ [.bool, pairOf (.range .i64 0 50) .bool] := by
    intro h
    simp only [List.cons.injEq, pairOf, Ty.struct.injEq, and_true, true_and] at h
    have hparts (high : Int) : ∀ t ∈ [Ty.range .i64 0 high, .bool], t.Spelled fun _ => false := by simp [Ty.Spelled]
    have hargs := instanceKey_inj (hparts 5) (hparts 50) (hlength _ _) (hlength _ _)
      (instanceKey_eq_of_instanceName_eq h)
    simp at hargs
  obtain ⟨hkey, -, hask⟩ := eq_of_sameInstance (hspelled 5) (hspelled 50) (hlength _ _) (hlength _ _)
  refine ⟨hspelled 5, hspelled 50, fun h => hne (hkey h), hpair, fun h => hne ?_⟩
  exact hask _ _ _ _ _ _ _ _ _ _ rfl rfl (fun h => Ty.noConfusion (h.symm.trans hpair)) rfl h.symm

end Typing

end Keel
