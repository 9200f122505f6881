/-
# Scanning: from text to tokens

The scanner works on the characters that are still to be read.  Such a rest is a
suffix of the source, so its byte length says where it stands.  Blanks and
comments are skipped in front of every token.

| at the front | becomes |
| --- | --- |
| `0x` and hex digits or `_` | integer |
| a digit, then digits or `_` | integer |
| `"` | string, with the escapes `\\ \" \n \r \t \0` |
| letter or `_`, then letters, digits or `_` | keyword or identifier |
| a symbol | the longest one that fits |

Parser combinators are written out: repetitions (`many0`, `take_while`, `digit1`, `multispace1`)
are `span`s or recursions on the rest, `recognize` of a sequence is the piece in front of the rest,
`take_until` and `escaped_transform` are recursions, and `alt` is the order of the cases.

A numeral of 2¹²⁷ or more and a character that starts nothing are reported and
scanning goes on; a block comment or string without an end takes the rest of the
text with it.
-/
import Keel.Token

namespace Keel

/-- Why a piece of text is no token. -/
inductive LexProblem where
  | openComment
  | openString
  | tooLarge (numeral : String)
  | unknown (char : Char)
deriving DecidableEq, Repr

def LexProblem.message : LexProblem → String
  | openComment => "unterminated block comment"
  | openString => "unterminated string literal"
  | tooLarge numeral => "integer literal " ++ Lexeme.quoted numeral ++ " is too large"
  | unknown char => "unrecognised character " ++ Lexeme.quoted char.toString

structure LexError where
  problem : LexProblem
  span : Span
deriving DecidableEq, Repr

namespace Scan

/-! ### Blanks and comments -/

def isSpace (c : Char) : Bool := c == ' ' || c == '\t' || c == '\r' || c == '\n'

/-- What follows the first `*/`, if there is one. -/
def afterComment : List Char → Option (List Char)
  | [] => none
  | '*' :: '/' :: rest => some rest
  | _ :: rest => afterComment rest

theorem length_afterComment {cs rest : List Char} (h : afterComment cs = some rest) :
    rest.length ≤ cs.length := by
  fun_induction afterComment cs with
  | case1 => simp at h
  | case2 => simp_all; omega
  | case3 c cs _ ih => have := ih h; simp; omega

theorem length_dropWhile (p : Char → Bool) (cs : List Char) :
    (cs.dropWhile p).length ≤ cs.length :=
  (List.dropWhile_suffix p).length_le

/-- What is left of a text from the end of its first line on. -/
def afterLine (cs : List Char) : List Char := cs.dropWhile (· != '\n')

/-- The text without the blanks and closed comments at its front. -/
def skipTrivia : List Char → List Char
  | [] => []
  | '/' :: '/' :: rest => skipTrivia (afterLine rest)
  | '/' :: '*' :: rest =>
    match _h : afterComment rest with
    | some after => skipTrivia after
    | none => '/' :: '*' :: rest
  | c :: rest => if isSpace c then skipTrivia rest else c :: rest
termination_by cs => cs.length
decreasing_by
  · have := length_dropWhile (· != '\n') rest
    simp [afterLine]; omega
  · have := length_afterComment _h
    simp; omega
  · simp

theorem length_skipTrivia (cs : List Char) : (skipTrivia cs).length ≤ cs.length := by
  fun_induction skipTrivia cs with
  | case1 => simp
  | case2 rest ih =>
    have := length_dropWhile (· != '\n') rest
    simp [afterLine] at ih ⊢; omega
  | case3 rest after h ih =>
    have := length_afterComment h
    simp; omega
  | case4 => simp
  | case5 c rest _ _ _ ih => simp; omega
  | case6 => simp

/-! ### Numerals -/

def isDigit (c : Char) : Bool := '0' ≤ c && c ≤ '9'

def isHexDigit (c : Char) : Bool :=
  isDigit c || ('a' ≤ c && c ≤ 'f') || ('A' ≤ c && c ≤ 'F')

/-- Value of a decimal or hexadecimal digit. -/
def digitValue (c : Char) : Nat :=
  if isDigit c then c.toNat - '0'.toNat
  else if 'a' ≤ c then c.toNat - 'a'.toNat + 10
  else c.toNat - 'A'.toNat + 10

/-- Value of a row of digits, the most significant first. -/
def positional (base : Nat) (digits : List Char) : Nat :=
  digits.foldl (fun value c => base * value + digitValue c) 0

/-- Integer literals are below two to the power of 127. -/
def literalBound : Nat := 1 <<< 127

/-- Value of a numeral's digits, underscores left out; a numeral needs a digit and
has to stay below the bound. -/
def numeralValue (base : Nat) (body : List Char) : Option Nat :=
  let digits := body.filter (· ≠ '_')
  if digits.isEmpty then none
  else
    let value := positional base digits
    if value < literalBound then some value else none

/-! ### Strings -/

/-- The character an escape stands for. -/
def escaped : Char → Option Char
  | '\\' => some '\\'
  | '"' => some '"'
  | 'n' => some '\n'
  | 'r' => some '\r'
  | 't' => some '\t'
  | '0' => some '\x00'
  | _ => none

/-- Contents of a string whose opening quote has been read, and what follows its
closing quote. -/
def stringBody : List Char → Option (List Char × List Char)
  | [] => none
  | '"' :: rest => some ([], rest)
  | '\\' :: [] => none
  | '\\' :: e :: rest =>
    match escaped e, stringBody rest with
    | some c, some (body, after) => some (c :: body, after)
    | _, _ => none
  | c :: rest => (stringBody rest).map fun (body, after) => (c :: body, after)

theorem length_stringBody {cs body after : List Char} (h : stringBody cs = some (body, after)) :
    after.length ≤ cs.length := by
  fun_induction stringBody cs generalizing body after with
  | case1 => simp at h
  | case2 => simp_all
  | case3 => simp at h
  | case4 e rest c body' after' hb hc ih =>
    have := ih hb
    simp_all; omega
  | case5 => simp at h
  | case6 c rest _ _ _ ih =>
    obtain ⟨⟨b, a⟩, hb, he⟩ := Option.map_eq_some_iff.1 h
    have := ih hb
    simp_all; omega

/-! ### One token -/

def isWordStart (c : Char) : Bool :=
  ('a' ≤ c && c ≤ 'z') || ('A' ≤ c && c ≤ 'Z') || c == '_'

def isWordPart (c : Char) : Bool := isWordStart c || isDigit c

def word (text : String) : Lexeme :=
  match Keyword.ofText? text with
  | some keyword => .keyword keyword
  | none => .ident text

/-- What follows a text, if it stands at the front. -/
def after? : List Char → List Char → Option (List Char)
  | [], cs => some cs
  | _ :: _, [] => none
  | p :: ps, c :: cs => if p = c then after? ps cs else none

/-- The longest symbol at the front, and what follows it. -/
def symbol? (cs : List Char) : Option (Symbol × List Char) :=
  Symbol.all.findSome? fun s => (after? s.text.toList cs).map fun rest => (s, rest)

/-- What the front of a text turned out to be. -/
inductive Step where
  /-- A lexeme and the text after it. -/
  | lexeme (lexeme : Lexeme) (rest : List Char)
  /-- Something wrong, and the text after it. -/
  | skip (problem : LexProblem) (rest : List Char)
  /-- Something wrong up to the end of the text. -/
  | stop (problem : LexProblem)

/-- A numeral written `text`, with its digits and the text after it. -/
def numeral (base : Nat) (text digits rest : List Char) : Step :=
  match numeralValue base digits with
  | some value => .lexeme (.int value) rest
  | none => .skip (.tooLarge (String.ofList text)) rest

/-- Reads a decimal numeral whose first digit is `c`. -/
def decimal (c : Char) (rest : List Char) : Step :=
  let digits := c :: rest.takeWhile (fun d => isDigit d || d == '_')
  numeral 10 digits digits (rest.dropWhile (fun d => isDigit d || d == '_'))

/-- Reads what starts with the character `c`, followed by `rest`. -/
def step (c : Char) (rest : List Char) : Step :=
  if c = '/' ∧ rest.head? = some '*' then .stop .openComment
  else if isDigit c then
    match c, rest with
    | '0', 'x' :: d :: more =>
      if isHexDigit d || d == '_' then
        let isPart := fun d => isHexDigit d || d == '_'
        let digits := (d :: more).takeWhile isPart
        numeral 16 ('0' :: 'x' :: digits) digits ((d :: more).dropWhile isPart)
      else decimal c rest
    | _, _ => decimal c rest
  else if c = '"' then
    match stringBody rest with
    | some (body, after) => .lexeme (.str (String.ofList body)) after
    | none => .stop .openString
  else if isWordStart c then
    .lexeme (word (String.ofList (c :: rest.takeWhile isWordPart))) (rest.dropWhile isWordPart)
  else
    match symbol? (c :: rest) with
    | some (sign, after) => .lexeme (.symbol sign) after
    | none => .skip (.unknown c) rest

/-- The text a step leaves to be read, if scanning goes on. -/
def Step.rest? : Step → Option (List Char)
  | .lexeme _ rest | .skip _ rest => some rest
  | .stop _ => none

theorem append_after? {p cs rest : List Char} (h : after? p cs = some rest) : p ++ rest = cs := by
  induction p generalizing cs with
  | nil => simp_all [after?]
  | cons a p ih =>
    cases cs with
    | nil => simp [after?] at h
    | cons b cs =>
      simp only [after?] at h
      split at h
      · rename_i hab
        rw [List.cons_append, ih h, hab]
      · simp at h

theorem length_symbol? {c : Char} {cs after : List Char} {sign : Symbol}
    (h : symbol? (c :: cs) = some (sign, after)) : after.length ≤ cs.length := by
  obtain ⟨s, _, hs⟩ := List.exists_of_findSome?_eq_some h
  obtain ⟨rest, hr, he⟩ := Option.map_eq_some_iff.1 hs
  have hp := append_after? hr
  obtain ⟨rfl, rfl⟩ := Prod.mk.inj he
  have hl : s.text.toList.length + rest.length = cs.length + 1 := by
    rw [← List.length_append, hp]; rfl
  have hn : 1 ≤ s.text.toList.length := by cases s <;> decide
  omega

theorem numeral_rest? {base : Nat} {text digits rest : List Char} :
    (numeral base text digits rest).rest? = some rest := by
  unfold numeral; split <;> rfl

/-- Every step reads at least one character. -/
theorem length_step {c : Char} {cs rest : List Char} (h : (step c cs).rest? = some rest) :
    rest.length ≤ cs.length := by
  unfold step at h
  split at h
  · simp [Step.rest?] at h
  split at h
  · split at h
    · split at h
      · rename_i d more _
        rw [numeral_rest?, Option.some.injEq] at h
        subst h
        refine Nat.le_trans (length_dropWhile _ _) ?_
        simp
      · rw [decimal, numeral_rest?, Option.some.injEq] at h
        subst h; exact length_dropWhile _ _
    · rw [decimal, numeral_rest?, Option.some.injEq] at h
      subst h; exact length_dropWhile _ _
  split at h
  · split at h
    · rename_i hb
      simp only [Step.rest?, Option.some.injEq] at h
      subst h; exact length_stringBody hb
    · simp [Step.rest?] at h
  split at h
  · simp only [Step.rest?, Option.some.injEq] at h
    subst h; exact length_dropWhile _ _
  split at h
  · rename_i hs
    simp only [Step.rest?, Option.some.injEq] at h
    subst h; exact length_symbol? hs
  · simp only [Step.rest?, Option.some.injEq] at h
    subst h; exact Nat.le_refl _

/-! ### The whole text -/

/-- Tokens and complaints, both in the order of the text. -/
structure Result where
  tokens : List Token
  errors : List LexError

/-- Scans a suffix of a source of `total` bytes. -/
def run (total : Nat) (cs : List Char) : Result :=
  match _ht : skipTrivia cs with
  | [] => ⟨[⟨.eof, ⟨total, total⟩⟩], []⟩
  | c :: rest =>
    let start := total - byteLength (c :: rest)
    match _hs : step c rest with
    | .lexeme lexeme after =>
      let tail := run total after
      { tail with tokens := ⟨lexeme, ⟨start, total - byteLength after⟩⟩ :: tail.tokens }
    | .skip problem after =>
      let tail := run total after
      { tail with errors := ⟨problem, ⟨start, total - byteLength after⟩⟩ :: tail.errors }
    | .stop problem => ⟨[], [⟨problem, ⟨start, total⟩⟩]⟩
termination_by cs.length
decreasing_by
  all_goals
    have hl := length_skipTrivia cs
    have hr : (step c rest).rest? = some after := by rw [_hs]; rfl
    have := length_step hr
    rw [_ht] at hl
    simp at hl
    omega

end Scan

/-- The tokens of a text, the last one being its end, or everything in it that is
no token. -/
def scan (text : String) : Except (List LexError) (List Token) :=
  let result := Scan.run text.utf8ByteSize text.toList
  if result.errors.isEmpty then .ok result.tokens else .error result.errors

end Keel
