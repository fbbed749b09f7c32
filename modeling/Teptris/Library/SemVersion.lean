import Mathlib.Data.List.Basic
import Mathlib.Tactic.Common

/-!
# Semantic versions

The version texts of Semantic Versioning 2.0.0: three numbers, the identifiers of a pre-release
and those of a build.
-/

namespace SemVersion

/-- Bytes. -/
abbrev Text := List UInt8

/-- A decimal digit. -/
def IsDigit (c : UInt8) : Prop := 0x30 ≤ c ∧ c ≤ 0x39

/-- A byte of an identifier: a letter, a digit or a hyphen. -/
def IsIdentByte (c : UInt8) : Prop :=
  IsDigit c ∨ (0x61 ≤ c ∧ c ≤ 0x7A) ∨ (0x41 ≤ c ∧ c ≤ 0x5A) ∨ c = 0x2D

/-- A non-empty run of identifier bytes. -/
def IsIdent (t : Text) : Prop := t ≠ [] ∧ ∀ c ∈ t, IsIdentByte c

/-- Nothing but digits. -/
def Digits (t : Text) : Prop := ∀ c ∈ t, IsDigit c

/-- A number without leading zeros. -/
def IsNumber (t : Text) : Prop := t ≠ [] ∧ Digits t ∧ (t.head? = some 0x30 → t.length = 1)

/-- An identifier of a pre-release: if it is all digits it is a number. -/
def IsPreIdent (t : Text) : Prop := IsIdent t ∧ (Digits t → IsNumber t)

/-- Identifiers with dots between them. -/
def dotted (ts : List Text) : Text := [0x2E].intercalate ts

/-- A version; no identifiers stand for a part that is absent. -/
structure Version where
  /-- The major version. -/
  major : Text
  /-- The minor version. -/
  minor : Text
  /-- The patch version. -/
  patch : Text
  /-- The identifiers of the pre-release. -/
  pre : List Text
  /-- The identifiers of the build. -/
  build : List Text
  major_number : IsNumber major
  minor_number : IsNumber minor
  patch_number : IsNumber patch
  pre_ident : ∀ t ∈ pre, IsPreIdent t
  build_ident : ∀ t ∈ build, IsIdent t

/-- Identifiers behind a sign, where there are any. -/
def marked (sign : UInt8) (ts : List Text) : Text := if ts = [] then [] else sign :: dotted ts

/-- The text of a version. -/
def Version.text (v : Version) : Text :=
  v.major ++ 0x2E :: (v.minor ++ 0x2E :: (v.patch ++ (marked 0x2D v.pre ++ marked 0x2B v.build)))

/-- A text is a version. -/
def IsVersion (s : Text) : Prop := ∃ v : Version, v.text = s

lemma IsIdent.no_dot {t : Text} (h : IsIdent t) : 0x2E ∉ t := fun hm => by
  have := h.2 _ hm
  grind [IsIdentByte, IsDigit]

lemma IsIdent.no_plus {t : Text} (h : IsIdent t) : 0x2B ∉ t := fun hm => by
  have := h.2 _ hm
  grind [IsIdentByte, IsDigit]

/-- Joined identifiers have no plus sign in them. -/
lemma no_plus_dotted {ts : List Text} (h : ∀ t ∈ ts, IsIdent t) : 0x2B ∉ dotted ts := by
  induction ts with
  | nil => simp [dotted]
  | cons t ts ih =>
    have ht := (h t (by simp)).no_plus
    have hts := ih fun t ht => h t (List.mem_cons_of_mem _ ht)
    by_cases hne : ts = []
    · simpa [dotted, hne] using ht
    · rw [dotted, List.intercalate_cons_of_ne_nil hne]
      simp only [List.mem_append, not_or]
      exact ⟨⟨ht, by simp⟩, hts⟩

/-- The identifiers are what stands between the dots. -/
lemma splitOn_dotted {ts : List Text} (h : ∀ t ∈ ts, IsIdent t) (hts : ts ≠ []) :
    (dotted ts).splitOn 0x2E = ts :=
  List.splitOn_intercalate _ (fun t ht => (h t ht).no_dot) hts

end SemVersion
