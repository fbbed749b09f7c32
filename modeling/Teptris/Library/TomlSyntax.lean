import Teptris.Library.Json
import Teptris.Library.Toml

/-!
# Texts of TOML

White space, comments, strings, keys, member lists and lines of TOML 1.1 over bytes, as relations
between a text and what it denotes.  Members and statements are taken over the relation of one
member and of one statement.
-/

namespace Toml

/-! ## White space and comments -/

/-- `wschar`. -/
def isWschar (c : UInt8) : Bool := c == 0x20 || c == 0x09

/-- `ws`. -/
def IsWs (t : List UInt8) : Prop := ∀ c ∈ t, isWschar c = true

lemma IsWs.nil : IsWs [] := fun _ h => absurd h List.not_mem_nil

lemma IsWs.append {t u : List UInt8} (ht : IsWs t) (hu : IsWs u) : IsWs (t ++ u) := fun c hc =>
  (List.mem_append.mp hc).elim (ht c) (hu c)

/-- `newline`. -/
inductive IsNewline : List UInt8 → Prop
  | lf : IsNewline [0x0A]
  | crlf : IsNewline [0x0D, 0x0A]

/-- A byte of a comment: `non-eol`, or a byte of a longer sequence. -/
def isNonEol (c : UInt8) : Bool := c == 0x09 || (0x20 ≤ c && c != 0x7F)

/-- `comment`. -/
inductive IsComment : List UInt8 → Prop
  | mk {t : List UInt8} (ht : ∀ c ∈ t, isNonEol c = true) : IsComment (0x23 :: t)

/-- An optional comment. -/
def IsRemark (t : List UInt8) : Prop := t = [] ∨ IsComment t

/-- White space and line ends. -/
inductive IsBlank : List UInt8 → Prop
  | nil : IsBlank []
  | ws {c : UInt8} {t : List UInt8} (hc : isWschar c = true) (ht : IsBlank t) : IsBlank (c :: t)
  | newline {n t : List UInt8} (hn : IsNewline n) (ht : IsBlank t) : IsBlank (n ++ t)

/-- `ws-comment-newline`. -/
inductive IsGap : List UInt8 → Prop
  | nil : IsGap []
  | ws {c : UInt8} {t : List UInt8} (hc : isWschar c = true) (ht : IsGap t) : IsGap (c :: t)
  | newline {n t : List UInt8} (hn : IsNewline n) (ht : IsGap t) : IsGap (n ++ t)
  | comment {c n t : List UInt8} (hc : IsComment c) (hn : IsNewline n) (ht : IsGap t) :
      IsGap (c ++ (n ++ t))

/-! ## Strings -/

/-- The byte of a two-character escape, by its second character. -/
def shortEscape (e : UInt8) : Option UInt8 :=
  [(0x62, 0x08), (0x74, 0x09), (0x6E, 0x0A), (0x66, 0x0C), (0x72, 0x0D), (0x22, 0x22),
    (0x5C, 0x5C), (0x65, 0x1B)].lookup e

/-- That many hexadecimal digits, with their value. -/
structure IsHex (n : ℕ) (t : List UInt8) (cp : ℕ) : Prop where
  /-- How many. -/
  length : t.length = n
  /-- Digits. -/
  digits : ∀ c ∈ t, isHexDigit c = true
  /-- Their value. -/
  val : runValue 16 t = cp

/-- A Unicode scalar value. -/
def IsScalarValue (cp : ℕ) : Prop := cp ≤ 0x10FFFF ∧ ¬ (0xD800 ≤ cp ∧ cp ≤ 0xDFFF)

/-- `escape-seq-char`, with what the escape stands for. -/
inductive IsEscape : List UInt8 → List UInt8 → Prop
  | short {e b : UInt8} (h : shortEscape e = some b) : IsEscape [e] [b]
  | two {t : List UInt8} {cp : ℕ} (h : IsHex 2 t cp) : IsEscape (0x78 :: t) (Json.encode cp)
  | four {t : List UInt8} {cp : ℕ} (h : IsHex 4 t cp) (hcp : IsScalarValue cp) :
      IsEscape (0x75 :: t) (Json.encode cp)
  | eight {t : List UInt8} {cp : ℕ} (h : IsHex 8 t cp) (hcp : IsScalarValue cp) :
      IsEscape (0x55 :: t) (Json.encode cp)

/-- The delimiter of basic and of literal strings. -/
def quote (basic : Bool) : UInt8 := if basic then 0x22 else 0x27

/-- A byte that stands for itself. -/
def isOrdinary (basic : Bool) (c : UInt8) : Bool :=
  isNonEol c && c != quote basic && !(basic && c == 0x5C)

/-- What stands between the delimiters of a `basic-string` or a `literal-string`, with the
string. -/
inductive IsChars (basic : Bool) : List UInt8 → List UInt8 → Prop
  | nil : IsChars basic [] []
  | char {c : UInt8} {t s : List UInt8} (hc : isOrdinary basic c = true)
      (h : IsChars basic t s) : IsChars basic (c :: t) (c :: s)
  | escape {e x t s : List UInt8} (hb : basic = true) (he : IsEscape e x)
      (h : IsChars basic t s) : IsChars basic (0x5C :: (e ++ t)) (x ++ s)

/-- `basic-string` and `literal-string`. -/
inductive IsQuoted : List UInt8 → List UInt8 → Prop
  | mk {basic : Bool} {t s : List UInt8} (h : IsChars basic t s) :
      IsQuoted (quote basic :: (t ++ [quote basic])) s

/-- A line end comes first. -/
def StartsNewline (t : List UInt8) : Prop := ∃ n r, IsNewline n ∧ t = n ++ r

/-- Neither white space nor a line end comes first. -/
def StartsSolid (t : List UInt8) : Prop :=
  (∀ c ∈ t.head?, isWschar c = false) ∧ ¬ StartsNewline t

/-- The body of a multi-line string and its closing delimiter, with the string.  A backslash at
the end of a line takes all white space and line ends behind it. -/
inductive IsMlBody (basic : Bool) : List UInt8 → List UInt8 → Prop
  | close {n : ℕ} (hn : n ≤ 2) :
      IsMlBody basic (List.replicate (n + 3) (quote basic)) (List.replicate n (quote basic))
  | quotes {n : ℕ} {t s : List UInt8} (hn : n = 1 ∨ n = 2) (ht : t.head? ≠ some (quote basic))
      (h : IsMlBody basic t s) :
      IsMlBody basic (List.replicate n (quote basic) ++ t) (List.replicate n (quote basic) ++ s)
  | char {c : UInt8} {t s : List UInt8} (hc : isOrdinary basic c = true)
      (h : IsMlBody basic t s) : IsMlBody basic (c :: t) (c :: s)
  | newline {n t s : List UInt8} (hn : IsNewline n) (h : IsMlBody basic t s) :
      IsMlBody basic (n ++ t) (0x0A :: s)
  | escape {e x t s : List UInt8} (hb : basic = true) (he : IsEscape e x)
      (h : IsMlBody basic t s) : IsMlBody basic (0x5C :: (e ++ t)) (x ++ s)
  | fold {w n g t s : List UInt8} (hb : basic = true) (hw : IsWs w) (hn : IsNewline n)
      (hg : IsBlank g) (ht : StartsSolid t) (h : IsMlBody basic t s) :
      IsMlBody basic (0x5C :: (w ++ (n ++ (g ++ t)))) s

/-- `ml-basic-string` and `ml-literal-string`: a line end right behind the opening delimiter is
dropped. -/
inductive IsMultiline : List UInt8 → List UInt8 → Prop
  | newline {basic : Bool} {n t s : List UInt8} (hn : IsNewline n) (h : IsMlBody basic t s) :
      IsMultiline (List.replicate 3 (quote basic) ++ (n ++ t)) s
  | plain {basic : Bool} {t s : List UInt8} (ht : ¬ StartsNewline t) (h : IsMlBody basic t s) :
      IsMultiline (List.replicate 3 (quote basic) ++ t) s

/-- `string`. -/
def IsString (t s : List UInt8) : Prop := IsQuoted t s ∨ IsMultiline t s

/-! ## Keys -/

/-- `unquoted-key-char`. -/
def isKeyByte (c : UInt8) : Bool :=
  isDigit c || (0x61 ≤ c && c ≤ 0x7A) || (0x41 ≤ c && c ≤ 0x5A) || c == 0x5F || c == 0x2D

/-- `simple-key`. -/
inductive IsKey : List UInt8 → List UInt8 → Prop
  | bare {t : List UInt8} (ht : ∀ c ∈ t, isKeyByte c = true) (hne : t ≠ []) : IsKey t t
  | quoted {t s : List UInt8} (h : IsQuoted t s) : IsKey t s

/-- `key`: simple keys with dots between them. -/
inductive IsPath : List UInt8 → List (List UInt8) → Prop
  | one {t k : List UInt8} (h : IsKey t k) : IsPath t [k]
  | dotted {t k w w' u : List UInt8} {ks : List (List UInt8)} (h : IsKey t k) (hw : IsWs w)
      (hw' : IsWs w') (hu : IsPath u ks) : IsPath (t ++ (w ++ 0x2E :: (w' ++ u))) (k :: ks)

/-! ## Members and lines -/

/-- The members of an array or an inline table and the closing bracket, from one state of what is
built to another. -/
inductive IsMembers {α : Type} (member : α → List UInt8 → α → Prop) (close : UInt8) :
    α → List UInt8 → α → Prop
  | close {a : α} {g : List UInt8} (hg : IsGap g) : IsMembers member close a (g ++ [close]) a
  | last {a b : α} {g t g' : List UInt8} (hg : IsGap g) (h : member a t b) (hg' : IsGap g') :
      IsMembers member close a (g ++ (t ++ (g' ++ [close]))) b
  | more {a b c : α} {g t g' u : List UInt8} (hg : IsGap g) (h : member a t b) (hg' : IsGap g')
      (hu : IsMembers member close b u c) :
      IsMembers member close a (g ++ (t ++ (g' ++ 0x2C :: u))) c

/-- Lines with at most one statement on each; a line end may be missing on the last one. -/
inductive IsDocument {α : Type} (statement : List UInt8 → α → Prop) : List UInt8 → List α → Prop
  | nil {w c : List UInt8} (hw : IsWs w) (hc : IsRemark c) : IsDocument statement (w ++ c) []
  | last {w t w' c : List UInt8} {x : α} (hw : IsWs w) (h : statement t x) (hw' : IsWs w')
      (hc : IsRemark c) : IsDocument statement (w ++ (t ++ (w' ++ c))) [x]
  | blank {w c n u : List UInt8} {xs : List α} (hw : IsWs w) (hc : IsRemark c)
      (hn : IsNewline n) (hu : IsDocument statement u xs) :
      IsDocument statement (w ++ (c ++ (n ++ u))) xs
  | line {w t w' c n u : List UInt8} {x : α} {xs : List α} (hw : IsWs w) (h : statement t x)
      (hw' : IsWs w') (hc : IsRemark c) (hn : IsNewline n) (hu : IsDocument statement u xs) :
      IsDocument statement (w ++ (t ++ (w' ++ (c ++ (n ++ u))))) (x :: xs)

/-- Whole lines of a document, each with its line end. -/
inductive IsLines {α : Type} (statement : List UInt8 → α → Prop) : List UInt8 → List α → Prop
  | nil : IsLines statement [] []
  | blank {w c n u : List UInt8} {xs : List α} (hw : IsWs w) (hc : IsRemark c)
      (hn : IsNewline n) (hu : IsLines statement u xs) :
      IsLines statement (w ++ (c ++ (n ++ u))) xs
  | line {w t w' c n u : List UInt8} {x : α} {xs : List α} (hw : IsWs w) (h : statement t x)
      (hw' : IsWs w') (hc : IsRemark c) (hn : IsNewline n) (hu : IsLines statement u xs) :
      IsLines statement (w ++ (t ++ (w' ++ (c ++ (n ++ u))))) (x :: xs)

section Lines

variable {α : Type} {statement statement' : List UInt8 → α → Prop} {t u : List UInt8}
  {xs ys : List α}

lemma IsDocument.mono (h : IsDocument statement t xs)
    (himp : ∀ t x, statement t x → statement' t x) : IsDocument statement' t xs := by
  induction h with
  | nil hw hc => exact .nil hw hc
  | last hw h hw' hc => exact .last hw (himp _ _ h) hw' hc
  | blank hw hc hn _ ih => exact .blank hw hc hn ih
  | line hw h hw' hc hn _ ih => exact .line hw (himp _ _ h) hw' hc hn ih

lemma IsLines.mono (h : IsLines statement t xs)
    (himp : ∀ t x, statement t x → statement' t x) : IsLines statement' t xs := by
  induction h with
  | nil => exact .nil
  | blank hw hc hn _ ih => exact .blank hw hc hn ih
  | line hw h hw' hc hn _ ih => exact .line hw (himp _ _ h) hw' hc hn ih

/-- Whole lines in front of a document. -/
lemma IsLines.append (h : IsLines statement t xs) (hu : IsDocument statement u ys) :
    IsDocument statement (t ++ u) (xs ++ ys) := by
  induction h with
  | nil => exact hu
  | blank hw hc hn _ ih =>
    simp only [List.append_assoc]
    exact .blank hw hc hn ih
  | line hw h hw' hc hn _ ih =>
    simp only [List.append_assoc, List.cons_append]
    exact .line hw h hw' hc hn ih

end Lines

end Toml
