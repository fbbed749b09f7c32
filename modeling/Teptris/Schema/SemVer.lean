import Mathlib.Data.List.TakeWhile
import Mathlib.Data.Nat.Basic
import Teptris.Dom.Byte
import Teptris.Library.Runs
import Teptris.Library.SemVersion

/-!
# The `semver` format

`check_semver` of `formats.c` against Semantic Versioning 2.0.0.  The identifiers of a build go
through the check for those of a pre-release, which turns away numbers with leading zeros.
-/

namespace Teptris

open SemVersion (Version IsVersion IsIdent IsNumber IsPreIdent Digits dotted marked)

/-! ## The check -/

/-- `is_ascii_alnum`. -/
def isAsciiAlnum (c : UInt8) : Bool :=
  isDec c || (0x61 ≤ c && c ≤ 0x7A) || (0x41 ≤ c && c ≤ 0x5A)

/-- `semver_numeric`. -/
def semverNumeric (s : Bytes) : Bool :=
  ¬ (s.length = 0 ∨ 19 < s.length) ∧ ¬ (s.head? = some Ch.zero ∧ 1 < s.length) ∧ s.all isDec

/-- `pre_ident_ok`. -/
def preIdentOk (s : Bytes) : Bool := s.all (fun c => isAsciiAlnum c || c = Ch.minus) ∧ 0 < s.length

/-- One identifier of `pre_list_ok`. -/
def preItemOk (s : Bytes) : Bool := preIdentOk s ∧ ¬ (s.all isDec ∧ ¬ semverNumeric s)

/-- The loop of `pre_list_ok`, `cur` being the identifier that is read. -/
def preListFrom (cur : Bytes) : Bytes → Bool
  | [] => preItemOk cur
  | c :: s =>
    if c = Ch.dot then preItemOk cur && preListFrom [] s else preListFrom (cur ++ [c]) s

/-- `pre_list_ok`. -/
def preListOk (s : Bytes) : Bool := preListFrom [] s

/-- A number of `check_semver`, with what follows it. -/
def semverPart (s : Bytes) : Option Bytes :=
  if semverNumeric (s.takeWhile isDec) then some (s.dropWhile isDec) else none

/-- The dot behind a number. -/
def semverDot : Bytes → Option Bytes
  | [] => none
  | c :: s => if c = Ch.dot then some s else none

/-- `check_semver` behind the pre-release. -/
def semverBuild : Bytes → Bool
  | [] => true
  | c :: s => c = Ch.plus ∧ s.dropWhile (· ≠ Ch.plus) = [] ∧ preListOk s

/-- `check_semver` behind the numbers. -/
def semverTail : Bytes → Bool
  | [] => true
  | c :: s =>
    if c = Ch.minus then
      preListOk (s.takeWhile (· ≠ Ch.plus)) && semverBuild (s.dropWhile (· ≠ Ch.plus))
    else semverBuild (c :: s)

/-- `check_semver`. -/
def checkSemver (s : Bytes) : Bool :=
  let rest := do
    let s ← semverPart s
    let s ← semverDot s
    let s ← semverPart s
    let s ← semverDot s
    semverPart s
  rest.any semverTail

/-! ## Identifiers -/

lemma isDec_digit (c : UInt8) : isDec c = true ↔ SemVersion.IsDigit c := by
  simp [isDec, SemVersion.IsDigit]

lemma all_isDec (s : Bytes) : s.all isDec = true ↔ Digits s := by
  simp [Digits, isDec_digit]

/-- The numbers of at most 19 digits. -/
lemma semverNumeric_iff (s : Bytes) : semverNumeric s = true ↔ IsNumber s ∧ s.length ≤ 19 := by
  simp only [semverNumeric, IsNumber, all_isDec, decide_eq_true_eq, not_or, not_and, not_lt,
    List.length_eq_zero_iff]
  have hlen : s ≠ [] → 1 ≤ s.length := fun h => List.length_pos_iff.2 h
  constructor
  · rintro ⟨⟨hne, hle⟩, hz, hd⟩
    exact ⟨⟨hne, hd, fun h => le_antisymm (hz h) (hlen hne)⟩, hle⟩
  · rintro ⟨⟨hne, hd, hz⟩, hle⟩
    exact ⟨⟨hne, hle⟩, fun h => le_of_eq (hz h), hd⟩

lemma preIdentOk_iff (s : Bytes) : preIdentOk s = true ↔ IsIdent s := by
  have hbyte : ∀ c : UInt8, (isAsciiAlnum c || decide (c = Ch.minus)) = true ↔
      SemVersion.IsIdentByte c := fun c => by
    simp [isAsciiAlnum, SemVersion.IsIdentByte, isDec_digit, or_assoc]
  simp only [preIdentOk, IsIdent, List.all_eq_true, hbyte, decide_eq_true_eq,
    List.length_pos_iff]
  exact and_comm

/-- An identifier that is all digits has at most 19 of them and no leading zeros. -/
def ShortNumber (t : Bytes) : Prop := Digits t → IsNumber t ∧ t.length ≤ 19

lemma preItemOk_iff (s : Bytes) : preItemOk s = true ↔ IsIdent s ∧ ShortNumber s := by
  simp only [preItemOk, decide_eq_true_eq, not_and_not_right, preIdentOk_iff, all_isDec,
    semverNumeric_iff, ShortNumber]

/-- The identifiers are those between the dots. -/
lemma preListFrom_eq (s cur : Bytes) :
    preListFrom cur s = ((s.splitOn Ch.dot).modifyHead (cur ++ ·)).all preItemOk := by
  induction s generalizing cur with
  | nil => simp [preListFrom]
  | cons c s ih =>
    rw [preListFrom, List.splitOn_cons_eq_if_modifyHead]
    by_cases hc : c = Ch.dot
    · simp only [hc, if_true, beq_self_eq_true, ih]
      cases s.splitOn Ch.dot <;> simp
    · simp only [hc, if_false, beq_iff_eq, ih]
      cases s.splitOn Ch.dot <;> simp

lemma preListOk_iff (s : Bytes) :
    preListOk s = true ↔ ∀ t ∈ s.splitOn Ch.dot, IsIdent t ∧ ShortNumber t := by
  have hid : (s.splitOn Ch.dot).modifyHead ([] ++ ·) = s.splitOn Ch.dot := by
    cases s.splitOn Ch.dot <;> rfl
  rw [preListOk, preListFrom_eq, hid]
  simp [preItemOk_iff]

/-- Joined identifiers are accepted where their numbers are short. -/
lemma preListOk_dotted {ts : List Bytes} (h : ∀ t ∈ ts, IsIdent t) (hts : ts ≠ []) :
    preListOk (dotted ts) = true ↔ ∀ t ∈ ts, ShortNumber t := by
  rw [preListOk_iff, SemVersion.splitOn_dotted h hts]
  exact forall₂_congr fun t ht => and_iff_right (h t ht)

/-- What is accepted is joined identifiers. -/
lemma exists_dotted {s : Bytes} (h : preListOk s = true) :
    ∃ ts, ts ≠ [] ∧ (∀ t ∈ ts, IsIdent t ∧ ShortNumber t) ∧ dotted ts = s :=
  ⟨s.splitOn Ch.dot, List.splitOn_ne_nil _ _, (preListOk_iff s).1 h, List.intercalate_splitOn _⟩

/-! ## The numbers -/

/-- A number and what follows it, which does not begin with a digit. -/
lemma semverPart_eq_some {s r : Bytes} : semverPart s = some r ↔
    ∃ n, IsNumber n ∧ n.length ≤ 19 ∧ s = n ++ r ∧ ∀ c ∈ r.head?, isDec c = false := by
  have hread : semverPart s = some r ↔
      (IsNumber (s.takeWhile isDec) ∧ (s.takeWhile isDec).length ≤ 19) ∧ s.dropWhile isDec = r := by
    rw [← semverNumeric_iff, semverPart]
    split_ifs with h <;> simp [h]
  have hcut := @Runs.cut_iff _ isDec r s (fun n => IsNumber n ∧ n.length ≤ 19)
    fun n hn c hc => (isDec_digit c).2 (hn.1.2.1 c hc)
  rw [hread, hcut]
  simp only [and_assoc]

lemma semverDot_eq_some {s r : Bytes} : semverDot s = some r ↔ s = Ch.dot :: r := by
  cases s with
  | nil => simp [semverDot]
  | cons c s => simp [semverDot]

/-- The three numbers of `check_semver`. -/
lemma checkSemver_eq (s : Bytes) : checkSemver s = true ↔ ∃ a b c r,
    (IsNumber a ∧ IsNumber b ∧ IsNumber c) ∧ (a.length ≤ 19 ∧ b.length ≤ 19 ∧ c.length ≤ 19) ∧
      s = a ++ Ch.dot :: (b ++ Ch.dot :: (c ++ r)) ∧ (∀ d ∈ r.head?, isDec d = false) ∧
        semverTail r = true := by
  have hdot : ∀ t : Bytes, ∀ c ∈ (Ch.dot :: t).head?, isDec c = false := by simp; decide
  simp only [checkSemver, Option.any_eq_true, Option.bind_eq_bind, Option.bind_eq_some_iff,
    semverPart_eq_some, semverDot_eq_some]
  constructor
  · rintro ⟨r, ⟨_, ⟨a, ha, hla, rfl, -⟩, _, rfl, _, ⟨b, hb, hlb, rfl, -⟩, _, rfl, c, hc, hlc, rfl,
      hr⟩, ht⟩
    exact ⟨a, b, c, r, ⟨ha, hb, hc⟩, ⟨hla, hlb, hlc⟩, rfl, hr, ht⟩
  · rintro ⟨a, b, c, r, ⟨ha, hb, hc⟩, ⟨hla, hlb, hlc⟩, rfl, hr, ht⟩
    exact ⟨r, ⟨_, ⟨a, ha, hla, rfl, hdot _⟩, _, rfl, _, ⟨b, hb, hlb, rfl, hdot _⟩, _, rfl, c, hc,
      hlc, rfl, hr⟩, ht⟩

/-! ## The parts behind the numbers -/

/-- The identifiers of a version, and that its numbers among them are short. -/
def ShortIdents (v : Version) : Prop := ∀ t ∈ v.pre ++ v.build, ShortNumber t

lemma semverBuild_iff (s : Bytes) : semverBuild s = true ↔
    ∃ ts, (∀ t ∈ ts, IsIdent t ∧ ShortNumber t) ∧ marked Ch.plus ts = s := by
  cases s with
  | nil => exact ⟨fun _ => ⟨[], by simp, rfl⟩, fun _ => rfl⟩
  | cons c s =>
    simp only [semverBuild, decide_eq_true_eq]
    constructor
    · rintro ⟨rfl, -, h⟩
      obtain ⟨ts, hts, hid, rfl⟩ := exists_dotted h
      exact ⟨ts, hid, if_neg hts⟩
    · rintro ⟨ts, hid, h⟩
      have hts : ts ≠ [] := fun h0 => by simp [h0, marked] at h
      rw [marked, if_neg hts, List.cons.injEq] at h
      obtain ⟨rfl, rfl⟩ := h
      have hplus := SemVersion.no_plus_dotted fun t ht => (hid t ht).1
      refine ⟨rfl, ?_, (preListOk_dotted (fun t ht => (hid t ht).1) hts).2 fun t ht =>
        (hid t ht).2⟩
      rw [List.dropWhile_eq_nil_iff]
      intro c hc
      have hne : c ≠ Ch.plus := fun h => hplus (by rwa [h] at hc)
      simpa using hne

/-- What stands in front of a build ends at its plus sign. -/
lemma takeWhile_marked {x : Bytes} (h : Ch.plus ∉ x) (build : List Bytes) :
    (x ++ marked Ch.plus build).takeWhile (· ≠ Ch.plus) = x ∧
      (x ++ marked Ch.plus build).dropWhile (· ≠ Ch.plus) = marked Ch.plus build := by
  have hall : ∀ c ∈ x, decide (c ≠ Ch.plus) = true := fun c hc =>
    decide_eq_true fun heq => h (by rwa [heq] at hc)
  rw [List.takeWhile_append_of_pos hall, List.dropWhile_append_of_pos hall]
  by_cases hb : build = []
  · simp [marked, hb]
  · simp [marked, hb]

lemma semverTail_iff (s : Bytes) : semverTail s = true ↔
    ∃ pre build, (∀ t ∈ pre, IsIdent t ∧ ShortNumber t) ∧
      (∀ t ∈ build, IsIdent t ∧ ShortNumber t) ∧
        marked Ch.minus pre ++ marked Ch.plus build = s := by
  constructor
  · intro h
    cases s with
    | nil => exact ⟨[], [], by simp, by simp, rfl⟩
    | cons c s =>
      rw [semverTail] at h
      split_ifs at h with hc
      · rw [Bool.and_eq_true] at h
        obtain ⟨pre, hne, hpre, hdot⟩ := exists_dotted h.1
        obtain ⟨build, hbuild, hmark⟩ := (semverBuild_iff _).1 h.2
        refine ⟨pre, build, hpre, hbuild, ?_⟩
        rw [marked, if_neg hne, hdot, hmark, hc, List.cons_append, List.takeWhile_append_dropWhile]
      · obtain ⟨build, hbuild, hmark⟩ := (semverBuild_iff _).1 h
        exact ⟨[], build, by simp, hbuild, hmark⟩
  · rintro ⟨pre, build, hpre, hbuild, rfl⟩
    have hrest := (semverBuild_iff _).2 ⟨build, hbuild, rfl⟩
    by_cases hne : pre = []
    · rw [marked, if_pos hne, List.nil_append]
      by_cases hb : build = []
      · rw [marked, if_pos hb, semverTail]
      · rw [marked, if_neg hb] at hrest ⊢
        rw [semverTail, if_neg (by decide), hrest]
    · have hid : ∀ t ∈ pre, IsIdent t := fun t ht => (hpre t ht).1
      obtain ⟨htake, hdrop⟩ := takeWhile_marked (SemVersion.no_plus_dotted hid) build
      have hlist := (preListOk_dotted hid hne).2 fun t ht => (hpre t ht).2
      have hsplit : marked Ch.minus pre ++ marked Ch.plus build =
          Ch.minus :: (dotted pre ++ marked Ch.plus build) := by
        rw [marked, if_neg hne, List.cons_append]
      rw [hsplit, semverTail, if_pos rfl, htake, hdrop, hlist, hrest]
      rfl

/-! ## Versions -/

/-- A version with numbers of at most 19 digits. -/
def ShortParts (v : Version) : Prop :=
  v.major.length ≤ 19 ∧ v.minor.length ≤ 19 ∧ v.patch.length ≤ 19

/-- The bytes behind the numbers begin with no digit. -/
lemma head_marked (pre build : List Bytes) :
    ∀ d ∈ (marked Ch.minus pre ++ marked Ch.plus build).head?, isDec d = false := by
  by_cases hp : pre = [] <;> by_cases hb : build = [] <;> simp [marked, hp, hb] <;> decide

/-- Numbers of versions are read up to the byte that ends them. -/
lemma number_unique {a b r t : Bytes} (ha : IsNumber a) (hb : IsNumber b)
    (hr : ∀ d ∈ r.head?, isDec d = false) (ht : ∀ d ∈ t.head?, isDec d = false)
    (h : a ++ r = b ++ t) : a = b ∧ r = t := by
  have hread : ∀ {n r : Bytes}, IsNumber n → (∀ d ∈ r.head?, isDec d = false) →
      (n ++ r).takeWhile isDec = n := fun hn hr =>
    (Runs.cut (fun c hc => (isDec_digit c).2 (hn.2.1 c hc)) hr).1
  have hab : a = b := by rw [← hread ha hr, h, hread hb ht]
  exact ⟨hab, List.append_cancel_left (hab ▸ h)⟩

/-- Marked identifiers determine the identifiers. -/
lemma marked_inj {sign : UInt8} {ts us : List Bytes} (ht : ∀ t ∈ ts, IsIdent t)
    (hu : ∀ t ∈ us, IsIdent t) (h : marked sign ts = marked sign us) : ts = us := by
  by_cases hts : ts = [] <;> by_cases hus : us = []
  · rw [hts, hus]
  · simp [marked, hts, hus] at h
  · simp [marked, hts, hus] at h
  · simp only [marked, hts, hus, if_false, List.cons.injEq, true_and] at h
    rw [← SemVersion.splitOn_dotted ht hts, h, SemVersion.splitOn_dotted hu hus]

/-- A version is determined by its text. -/
lemma text_inj {v w : Version} (h : v.text = w.text) : v = w := by
  obtain ⟨a, b, c, pre, build, ha, hb, hc, hpre, hbuild⟩ := v
  obtain ⟨a', b', c', pre', build', ha', hb', hc', hpre', hbuild'⟩ := w
  have hdot : ∀ t : Bytes, ∀ c ∈ (Ch.dot :: t).head?, isDec c = false := by simp; decide
  have hsign : ∀ {ts : List Bytes}, (∀ t ∈ ts, IsIdent t) → Ch.plus ∉ marked Ch.minus ts := by
    intro ts hts
    have := SemVersion.no_plus_dotted hts
    rw [marked]
    split_ifs
    · simp
    · exact fun hm => (List.mem_cons.1 hm).elim (by decide) this
  obtain ⟨rfl, h⟩ := number_unique ha ha' (hdot _) (hdot _) h
  obtain ⟨rfl, h⟩ := number_unique hb hb' (hdot _) (hdot _) (List.cons.inj h).2
  obtain ⟨rfl, h⟩ := number_unique hc hc' (head_marked _ _) (head_marked _ _) (List.cons.inj h).2
  obtain ⟨htake, hdrop⟩ := takeWhile_marked (hsign fun t ht => (hpre t ht).1) build
  obtain ⟨htake', hdrop'⟩ := takeWhile_marked (hsign fun t ht => (hpre' t ht).1) build'
  rw [h, htake'] at htake
  rw [h, hdrop'] at hdrop
  obtain rfl := marked_inj (fun t ht => (hpre' t ht).1) (fun t ht => (hpre t ht).1) htake
  obtain rfl := marked_inj hbuild' hbuild hdrop
  rfl

/-- `check_semver` accepts a version whose numbers are short and whose identifiers pass the check
for pre-releases. -/
lemma checkSemver_iff (s : Bytes) : checkSemver s = true ↔
    ∃ v : Version, v.text = s ∧ ShortParts v ∧ ShortIdents v := by
  rw [checkSemver_eq]
  constructor
  · rintro ⟨a, b, c, r, ⟨ha, hb, hc⟩, hle, rfl, -, ht⟩
    obtain ⟨pre, build, hpre, hbuild, rfl⟩ := (semverTail_iff r).1 ht
    refine ⟨⟨a, b, c, pre, build, ha, hb, hc, fun t ht => ⟨(hpre t ht).1, fun hd =>
      ((hpre t ht).2 hd).1⟩, fun t ht => (hbuild t ht).1⟩, rfl, hle, fun t ht => ?_⟩
    rcases List.mem_append.1 ht with h | h
    · exact (hpre t h).2
    · exact (hbuild t h).2
  · rintro ⟨v, rfl, hle, hid⟩
    refine ⟨v.major, v.minor, v.patch, _, ⟨v.major_number, v.minor_number, v.patch_number⟩, hle,
      rfl, head_marked _ _,
      (semverTail_iff _).2 ⟨v.pre, v.build, fun t ht => ?_, fun t ht => ?_, rfl⟩⟩
    · exact ⟨(v.pre_ident t ht).1, hid t (List.mem_append_left _ ht)⟩
    · exact ⟨v.build_ident t ht, hid t (List.mem_append_right _ ht)⟩

/-- On texts whose numeric parts are not too long `check_semver` decides whether the text is a
version, unless an identifier that is all digits is too long or, in a build, has leading zeros. -/
theorem checkSemver_correct_iff {s : Bytes} (h : ∀ v : Version, v.text = s → ShortParts v) :
    (checkSemver s = true ↔ IsVersion s) ↔ ∀ v : Version, v.text = s → ShortIdents v := by
  rw [checkSemver_iff]
  constructor
  · intro hiff v hv
    obtain ⟨w, hw, -, hid⟩ := hiff.2 ⟨v, hv⟩
    exact text_inj (hv.trans hw.symm) ▸ hid
  · intro hid
    exact ⟨fun ⟨v, hv, _⟩ => ⟨v, hv⟩, fun ⟨v, hv⟩ => ⟨v, hv, h v hv, hid v hv⟩⟩

/-- `1.0.0+01`. -/
def paddedBuild : Version where
  major := [0x31]
  minor := [0x30]
  patch := [0x30]
  pre := []
  build := [[0x30, 0x31]]
  major_number := by simp [IsNumber, Digits, SemVersion.IsDigit]
  minor_number := by simp [IsNumber, Digits, SemVersion.IsDigit]
  patch_number := by simp [IsNumber, Digits, SemVersion.IsDigit]
  pre_ident := by simp
  build_ident := by simp [IsIdent, SemVersion.IsIdentByte, SemVersion.IsDigit]

lemma paddedBuild_short {v : Version} (h : v.text = paddedBuild.text) : ShortParts v :=
  text_inj h ▸ by simp [ShortParts, paddedBuild]

theorem checkSemver_paddedBuild : (checkSemver paddedBuild.text = true ↔
    IsVersion paddedBuild.text) ↔ ∀ v : Version, v.text = paddedBuild.text → ShortIdents v :=
  checkSemver_correct_iff fun _ h => paddedBuild_short h

/-- A build may be numbered `01`, and the check turns it away. -/
theorem checkSemver_rejects : ¬ ∀ s : Bytes, (∀ v : Version, v.text = s → ShortParts v) →
    (checkSemver s = true ↔ IsVersion s) := fun h =>
  absurd ((h _ fun _ hv => paddedBuild_short hv).2 ⟨paddedBuild, rfl⟩) (by decide)

end Teptris
