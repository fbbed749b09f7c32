import Mathlib.Data.List.Basic
import Mathlib.Data.List.TakeWhile
import Mathlib.Tactic.Common

/-!
# References to URIs

The components of a URI reference and their text, and its resolution against a base, as RFC 3986
has them in section 5: the algorithm that removes dot segments, the merge of two paths, and the
transformation of references.
-/

namespace Uri

/-- Bytes. -/
abbrev Text := List UInt8

/-! ## Dot segments -/

/-- `.`. -/
def dot : Text := [0x2E]

/-- `..`. -/
def dots : Text := [0x2E, 0x2E]

/-- Without its last segment and the slash in front of it. -/
def dropSegment (out : Text) : Text := ((out.reverse.dropWhile (· != 0x2F)).drop 1).reverse

/-- The first segment of a path, with the slash in front of it. -/
def firstSegment (inp : Text) : Text :=
  if inp.head? = some 0x2F then 0x2F :: (inp.drop 1).takeWhile (· != 0x2F)
  else inp.takeWhile (· != 0x2F)

/-- The loop of section 5.2.4, over its input and its output buffer. -/
def removeDotsLoop : ℕ → Text → Text → Text
  | 0, _, out => out
  | n + 1, inp, out =>
    if inp = [] then out
    else if [0x2E, 0x2E, 0x2F] <+: inp then removeDotsLoop n (inp.drop 3) out
    else if [0x2E, 0x2F] <+: inp then removeDotsLoop n (inp.drop 2) out
    else if [0x2F, 0x2E, 0x2F] <+: inp then removeDotsLoop n (inp.drop 2) out
    else if inp = [0x2F, 0x2E] then removeDotsLoop n [0x2F] out
    else if [0x2F, 0x2E, 0x2E, 0x2F] <+: inp then removeDotsLoop n (inp.drop 3) (dropSegment out)
    else if inp = [0x2F, 0x2E, 0x2E] then removeDotsLoop n [0x2F] (dropSegment out)
    else if inp = dot ∨ inp = dots then removeDotsLoop n [] out
    else removeDotsLoop n (inp.drop (firstSegment inp).length) (out ++ firstSegment inp)

/-- `remove_dot_segments`. -/
def removeDots (path : Text) : Text := removeDotsLoop (path.length + 1) path []

/-! ## Segments -/

/-- The texts between the slashes. -/
def segments (t : Text) : List Text := t.splitOn 0x2F

/-- Segments with slashes between them. -/
def joined (ss : List Text) : Text := [0x2F].intercalate ss

/-- Without the segments that name the place they are at; the last one stays. -/
def dotless : List Text → List Text
  | s :: s' :: ss => if s = dot then dotless (s' :: ss) else s :: dotless (s' :: ss)
  | ss => ss

/-- No segment but the last one leads up. -/
def NoParent (t : Text) : Prop := dots ∉ (segments t).dropLast

/-- The last segment is a name. -/
def EndsNamed (t : Text) : Prop := ∀ s ∈ (segments t).getLast?, s ≠ dot ∧ s ≠ dots

/-- A text without the segments that name the place they are at. -/
def cleaned (t : Text) : Text := joined (dotless (segments t))

section Segments

variable {s t : Text}

lemma segments_of_not_mem (hs : 0x2F ∉ s) : segments s = [s] := List.splitOn_eq_singleton hs

lemma segments_cons (hs : 0x2F ∉ s) (t : Text) : segments (s ++ 0x2F :: t) = s :: segments t :=
  List.splitOn_append_cons_self_of_not_mem hs t

lemma segments_ne_nil (t : Text) : segments t ≠ [] := List.splitOn_ne_nil _ _

/-- A text is a segment, or a segment in front of another text. -/
@[elab_as_elim]
theorem segment_induction {P : Text → Prop} (last : ∀ s, 0x2F ∉ s → P s)
    (cons : ∀ s t, 0x2F ∉ s → P t → P (s ++ 0x2F :: t)) (t : Text) : P t := by
  by_cases hmem : 0x2F ∈ t
  · obtain ⟨s, u, rfl, hs⟩ := List.eq_append_cons_of_mem hmem
    exact cons s u hs (segment_induction last cons u)
  · exact last t hmem
termination_by t.length
decreasing_by
  simp_all
  omega

lemma dotless_ne_nil {ss : List Text} (h : ss ≠ []) : dotless ss ≠ [] := by
  induction ss with
  | nil => exact h
  | cons s ss ih =>
    cases ss with
    | nil => exact List.cons_ne_nil _ _
    | cons s' ss =>
      rw [dotless]
      split_ifs
      · exact ih (List.cons_ne_nil _ _)
      · exact List.cons_ne_nil _ _

lemma joined_cons {ss : List Text} (h : ss ≠ []) (s : Text) :
    joined (s :: ss) = s ++ 0x2F :: joined ss := by
  obtain ⟨s', ss, rfl⟩ := List.exists_cons_of_ne_nil h
  simp [joined, List.intercalate]

lemma cleaned_of_not_mem (hs : 0x2F ∉ s) : cleaned s = s := by
  rw [cleaned, segments_of_not_mem hs]
  simp [dotless, joined, List.intercalate]

lemma cleaned_dot (t : Text) : cleaned (dot ++ 0x2F :: t) = cleaned t := by
  obtain ⟨s', ss, heq⟩ := List.exists_cons_of_ne_nil (segments_ne_nil t)
  rw [cleaned, cleaned, segments_cons (by decide), heq, dotless, if_pos rfl]

lemma cleaned_cons (hs : 0x2F ∉ s) (hne : s ≠ dot) (t : Text) :
    cleaned (s ++ 0x2F :: t) = s ++ 0x2F :: cleaned t := by
  obtain ⟨s', ss, heq⟩ := List.exists_cons_of_ne_nil (segments_ne_nil t)
  rw [cleaned, cleaned, segments_cons hs, heq, dotless, if_neg hne,
    joined_cons (dotless_ne_nil (List.cons_ne_nil _ _))]

lemma noParent_of_not_mem (hs : 0x2F ∉ s) : NoParent s := by
  rw [NoParent, segments_of_not_mem hs]
  simp

lemma noParent_cons (hs : 0x2F ∉ s) : NoParent (s ++ 0x2F :: t) ↔ s ≠ dots ∧ NoParent t := by
  rw [NoParent, NoParent, segments_cons hs, List.dropLast_cons_of_ne_nil (segments_ne_nil t),
    List.mem_cons, not_or, ne_comm]

lemma endsNamed_of_not_mem (hs : 0x2F ∉ s) : EndsNamed s ↔ s ≠ dot ∧ s ≠ dots := by
  rw [EndsNamed, segments_of_not_mem hs]
  simp

lemma endsNamed_cons (hs : 0x2F ∉ s) : EndsNamed (s ++ 0x2F :: t) ↔ EndsNamed t := by
  rw [EndsNamed, EndsNamed, segments_cons hs, List.getLast?_cons_of_ne_nil (segments_ne_nil t)]

lemma segments_append_slash (d t : Text) :
    segments (d ++ 0x2F :: t) = segments d ++ segments t := List.splitOn_append_cons_self d t

/-- Behind a directory. -/
lemma cleaned_append_slash {d : Text} (hd : dot ∉ segments d) (t : Text) :
    cleaned (d ++ 0x2F :: t) = d ++ 0x2F :: cleaned t := by
  induction d using segment_induction with
  | last s hs =>
    rw [segments_of_not_mem hs, List.mem_singleton] at hd
    exact cleaned_cons hs (Ne.symm hd) t
  | cons s d hs ih =>
    rw [segments_cons hs, List.mem_cons, not_or] at hd
    rw [List.append_assoc, List.cons_append, cleaned_cons hs (Ne.symm hd.1), ih hd.2,
      List.append_assoc, List.cons_append]

lemma noParent_append_slash {d : Text} :
    NoParent (d ++ 0x2F :: t) ↔ dots ∉ segments d ∧ NoParent t := by
  rw [NoParent, NoParent, segments_append_slash, List.dropLast_append_of_ne_nil (segments_ne_nil t),
    List.mem_append, not_or]

lemma endsNamed_append_slash {d : Text} : EndsNamed (d ++ 0x2F :: t) ↔ EndsNamed t := by
  rw [EndsNamed, EndsNamed, segments_append_slash,
    List.getLast?_append_of_ne_nil _ (segments_ne_nil t)]

/-- A text without dots in front of its last segment. -/
lemma cleaned_eq_self (h : dot ∉ (segments t).dropLast) : cleaned t = t := by
  induction t using segment_induction with
  | last s hs => exact cleaned_of_not_mem hs
  | cons s t hs ih =>
    rw [segments_cons hs, List.dropLast_cons_of_ne_nil (segments_ne_nil t), List.mem_cons,
      not_or] at h
    rw [cleaned_cons hs (Ne.symm h.1), ih h.2]

/-- A text that starts with neither a dot nor a slash: empty, without a slash, or with a first
segment that is no dot segment, behind whatever it stands. -/
lemma behind_cases {u : Text} (hu : ∀ c ∈ u.head?, c ≠ 0x2E ∧ c ≠ 0x2F) :
    0x2F ∉ u ∨ ∃ s v, u = s ++ 0x2F :: v ∧ 0x2F ∉ s ∧ ∀ r : Text, r ++ s ≠ dot ∧ r ++ s ≠ dots := by
  by_cases hmem : 0x2F ∈ u
  · obtain ⟨s, v, rfl, hs⟩ := List.eq_append_cons_of_mem hmem
    refine .inr ⟨s, v, rfl, hs, fun r => ?_⟩
    cases s with
    | nil => exact absurd rfl (hu 0x2F rfl).2
    | cons c s =>
      have hc : c ≠ 0x2E := (hu c rfl).1
      have hmem : c ∈ r ++ c :: s := by simp
      constructor
      · intro h
        rw [h] at hmem
        exact hc (by simpa [dot] using hmem)
      · intro h
        rw [h] at hmem
        exact hc (by simpa [dots] using hmem)
  · exact .inl hmem

/-- What stands behind a path changes none of its segments but the last. -/
lemma cleaned_append {u : Text} (hu : ∀ c ∈ u.head?, c ≠ 0x2E ∧ c ≠ 0x2F)
    (hq : dot ∉ (segments u).dropLast) (t : Text) : cleaned (t ++ u) = cleaned t ++ u := by
  induction t using segment_induction with
  | last s hs =>
    rw [cleaned_of_not_mem hs]
    rcases behind_cases hu with hno | ⟨s', v, rfl, hs', hne⟩
    · exact cleaned_of_not_mem (by simp [hs, hno])
    · rw [segments_cons hs', List.dropLast_cons_of_ne_nil (segments_ne_nil v), List.mem_cons,
        not_or] at hq
      rw [← List.append_assoc, cleaned_cons (by simp [hs, hs']) (hne s).1, cleaned_eq_self hq.2]
  | cons s t hs ih =>
    rw [List.append_assoc, List.cons_append]
    by_cases hdot : s = dot
    · rw [hdot, cleaned_dot, cleaned_dot, ih]
    · rw [cleaned_cons hs hdot, cleaned_cons hs hdot, ih, List.append_assoc, List.cons_append]

lemma noParent_append {u : Text} (hu : ∀ c ∈ u.head?, c ≠ 0x2E ∧ c ≠ 0x2F)
    (hq : dots ∉ (segments u).dropLast) : NoParent (t ++ u) ↔ NoParent t := by
  induction t using segment_induction with
  | last s hs =>
    refine iff_of_true ?_ (noParent_of_not_mem hs)
    rcases behind_cases hu with hno | ⟨s', v, rfl, hs', hne⟩
    · exact noParent_of_not_mem (by simp [hs, hno])
    · rw [segments_cons hs', List.dropLast_cons_of_ne_nil (segments_ne_nil v), List.mem_cons,
        not_or] at hq
      rw [← List.append_assoc, noParent_cons (by simp [hs, hs'])]
      exact ⟨(hne s).2, hq.2⟩
  | cons s t hs ih =>
    rw [List.append_assoc, List.cons_append, noParent_cons hs, noParent_cons hs, ih]

end Segments

/-! ## Removing dots from a path without parents -/

section RemoveDots

variable {s t : Text}

/-- A slash ends a prefix of a text that starts with a segment. -/
lemma slash_prefix_iff {p : Text} (hp : 0x2F ∉ p) (hs : 0x2F ∉ s) (t : Text) :
    p ++ [0x2F] <+: s ++ 0x2F :: t ↔ s = p := by
  constructor
  · rintro ⟨r, hr⟩
    have h := congrArg segments hr
    rw [List.append_assoc, List.singleton_append, segments_cons hp, segments_cons hs] at h
    exact (List.cons.inj h).1.symm
  · rintro rfl
    exact ⟨t, by simp⟩

/-- There is none in a segment. -/
lemma not_slash_prefix {p : Text} (hs : 0x2F ∉ s) : ¬ p ++ [0x2F] <+: s := by
  rintro ⟨r, rfl⟩
  simp at hs

lemma takeWhile_segment (hs : 0x2F ∉ s) (t : Text) :
    (s ++ 0x2F :: t).takeWhile (· != 0x2F) = s ∧ s.takeWhile (· != 0x2F) = s := by
  have hall : ∀ c ∈ s, (c != 0x2F) = true := fun c hc => by
    simpa using fun heq : c = 0x2F => hs (heq ▸ hc)
  refine ⟨?_, List.takeWhile_eq_self_iff.2 hall⟩
  rw [List.takeWhile_append_of_pos hall]
  simp

/-- Rule B of the loop, in front of more. -/
lemma removeDotsLoop_dot (n : ℕ) (t out : Text) :
    removeDotsLoop (n + 1) (0x2F :: (dot ++ 0x2F :: t)) out =
      removeDotsLoop n (0x2F :: t) out := by
  simp [removeDotsLoop, dot]

/-- Rule E of the loop, behind a slash and in front of more. -/
lemma removeDotsLoop_segment (hs : 0x2F ∉ s) (hdot : s ≠ dot) (hdots : s ≠ dots) (n : ℕ)
    (t out : Text) :
    removeDotsLoop (n + 1) (0x2F :: (s ++ 0x2F :: t)) out =
      removeDotsLoop n (0x2F :: t) (out ++ 0x2F :: s) := by
  have hB : ¬ dot ++ [0x2F] <+: s ++ 0x2F :: t := fun h =>
    hdot ((slash_prefix_iff (by decide) hs t).mp h)
  have hC : ¬ dots ++ [0x2F] <+: s ++ 0x2F :: t := fun h =>
    hdots ((slash_prefix_iff (by decide) hs t).mp h)
  have hmem : 0x2F ∈ s ++ 0x2F :: t := by simp
  have hB' : s ++ 0x2F :: t ≠ dot := fun h => absurd (h ▸ hmem) (by decide)
  have hC' : s ++ 0x2F :: t ≠ dots := fun h => absurd (h ▸ hmem) (by decide)
  simp only [dot, dots, List.cons_append, List.nil_append] at hB hC hB' hC'
  simp [removeDotsLoop, dot, dots, hB, hC, hB', hC', firstSegment, (takeWhile_segment hs t).1]

/-- Rule E of the loop, on the last segment. -/
lemma removeDotsLoop_last (hs : 0x2F ∉ s) (hdot : s ≠ dot) (hdots : s ≠ dots) (n : ℕ)
    (out : Text) : removeDotsLoop (n + 2) (0x2F :: s) out = out ++ 0x2F :: s := by
  have hB : ¬ dot ++ [0x2F] <+: s := not_slash_prefix hs
  have hC : ¬ dots ++ [0x2F] <+: s := not_slash_prefix hs
  simp only [dot, dots, List.cons_append, List.nil_append] at hB hC hdot hdots
  simp [removeDotsLoop, dot, dots, hB, hC, hdot, hdots, firstSegment, (takeWhile_segment hs []).2]

/-- Behind a slash, dots are removed from what is in front. -/
lemma removeDotsLoop_slash (hp : NoParent t) (he : EndsNamed t) {n : ℕ} (hn : t.length + 1 < n)
    (out : Text) : removeDotsLoop n (0x2F :: t) out = out ++ 0x2F :: cleaned t := by
  induction t using segment_induction generalizing n out with
  | last s hs =>
    obtain ⟨hdot, hdots⟩ := (endsNamed_of_not_mem hs).mp he
    obtain _ | _ | n := n
    · omega
    · omega
    · rw [removeDotsLoop_last hs hdot hdots, cleaned_of_not_mem hs]
  | cons s t hs ih =>
    obtain ⟨hdots, hpt⟩ := (noParent_cons hs).mp hp
    have het := (endsNamed_cons hs).mp he
    rw [List.length_append, List.length_cons] at hn
    obtain _ | n := n
    · omega
    have hrest : t.length + 1 < n := by omega
    by_cases hdot : s = dot
    · rw [hdot, removeDotsLoop_dot, ih hpt het hrest, cleaned_dot]
    · rw [removeDotsLoop_segment hs hdot hdots, ih hpt het hrest, cleaned_cons hs hdot,
        List.append_assoc, List.cons_append]

lemma removeDotsLoop_nil (n : ℕ) (out : Text) : removeDotsLoop n [] out = out := by
  cases n <;> rfl

/-- Rule E of the loop, on a first segment without a slash in front. -/
lemma removeDotsLoop_first {u : Text} (hs : 0x2F ∉ s) (hne : s ≠ []) (hdot : s ≠ dot)
    (hdots : s ≠ dots) (hu : u = [] ∨ ∃ t, u = 0x2F :: t) (n : ℕ) :
    removeDotsLoop (n + 1) (s ++ u) [] = removeDotsLoop n u s := by
  have hA : ¬ dots ++ [0x2F] <+: s ++ u := by
    rcases hu with rfl | ⟨t, rfl⟩
    · rw [List.append_nil]
      exact not_slash_prefix hs
    · exact fun h => hdots ((slash_prefix_iff (by decide) hs t).mp h)
  have hA' : ¬ dot ++ [0x2F] <+: s ++ u := by
    rcases hu with rfl | ⟨t, rfl⟩
    · rw [List.append_nil]
      exact not_slash_prefix hs
    · exact fun h => hdot ((slash_prefix_iff (by decide) hs t).mp h)
  have hD : s ++ u ≠ dot ∧ s ++ u ≠ dots := by
    rcases hu with rfl | ⟨t, rfl⟩
    · rw [List.append_nil]
      exact ⟨hdot, hdots⟩
    · have hmem : 0x2F ∈ s ++ 0x2F :: t := by simp
      exact ⟨fun h => absurd (h ▸ hmem) (by decide), fun h => absurd (h ▸ hmem) (by decide)⟩
  have htake : (s ++ u).takeWhile (· != 0x2F) = s := by
    rcases hu with rfl | ⟨t, rfl⟩
    · rw [List.append_nil]
      exact (takeWhile_segment hs []).2
    · exact (takeWhile_segment hs t).1
  obtain ⟨c, s, rfl⟩ := List.exists_cons_of_ne_nil hne
  have hc : c ≠ 0x2F := fun h => hs (h ▸ List.mem_cons_self)
  simp only [dot, dots, List.cons_append, List.nil_append] at hA hA' hD htake ⊢
  rw [removeDotsLoop, if_neg (List.cons_ne_nil _ _), if_neg hA, if_neg hA',
    if_neg (by simp [hc.symm]), if_neg (by simp [hc]), if_neg (by simp [hc.symm]),
    if_neg (by simp [hc]), if_neg (by simpa [dot, dots] using hD), firstSegment,
    if_neg (by simpa using hc), htake]
  simp

/-- The first rounds of the loop, up to a slash. -/
lemma removeDotsLoop_start (hp : NoParent t) (he : EndsNamed t) {n : ℕ} (hn : t.length < n) :
    removeDotsLoop n t [] = cleaned t := by
  induction t using segment_induction generalizing n with
  | last s hs =>
    obtain ⟨hdot, hdots⟩ := (endsNamed_of_not_mem hs).mp he
    rw [cleaned_of_not_mem hs]
    cases s with
    | nil =>
      obtain _ | n := n
      · exact absurd hn (Nat.not_lt_zero _)
      · simp [removeDotsLoop]
    | cons c s =>
      obtain _ | n := n
      · exact absurd hn (Nat.not_lt_zero _)
      have hstep := removeDotsLoop_first hs (List.cons_ne_nil c s) hdot hdots (.inl rfl) n
      rw [List.append_nil] at hstep
      rw [hstep, removeDotsLoop_nil]
  | cons s t hs ih =>
    obtain ⟨hdots, hpt⟩ := (noParent_cons hs).mp hp
    have het := (endsNamed_cons hs).mp he
    rw [List.length_append, List.length_cons] at hn
    obtain _ | n := n
    · omega
    by_cases hdot : s = dot
    · have hstep : removeDotsLoop (n + 1) (dot ++ 0x2F :: t) [] = removeDotsLoop n t [] := by
        simp [removeDotsLoop, dot]
      rw [hdot, hstep, ih hpt het (by omega), cleaned_dot]
    · rw [cleaned_cons hs hdot]
      by_cases hne : s = []
      · subst hne
        exact removeDotsLoop_slash hpt het (by simpa using hn) []
      · have hlen := List.length_pos_of_ne_nil hne
        rw [removeDotsLoop_first hs hne hdot hdots (.inr ⟨t, rfl⟩),
          removeDotsLoop_slash hpt het (by omega)]

lemma dropSegment_length_le (out : Text) : (dropSegment out).length ≤ out.length := by
  have h := (List.dropWhile_suffix (· != 0x2F) (l := out.reverse)).length_le
  rw [dropSegment, List.length_reverse, List.length_drop]
  rw [List.length_reverse] at h
  omega

/-- A last segment that is no name is not left there: rules B and C. -/
lemma removeDotsLoop_unnamed (hs : s = dot ∨ s = dots) (n : ℕ) (out : Text) :
    (removeDotsLoop (n + 2) (0x2F :: s) out).length < (out ++ 0x2F :: s).length := by
  have hdrop := dropSegment_length_le out
  rcases hs with rfl | rfl
  · simp [removeDotsLoop, dot, dots, firstSegment, removeDotsLoop_nil]
  · simp [removeDotsLoop, dot, dots, firstSegment, removeDotsLoop_nil]
    omega

/-- Behind a slash, a path that does not end with a name gets shorter than without its dots. -/
lemma removeDotsLoop_slash_lt (hp : NoParent t) (he : ¬ EndsNamed t) {n : ℕ}
    (hn : t.length + 1 < n) (out : Text) :
    (removeDotsLoop n (0x2F :: t) out).length < (out ++ 0x2F :: cleaned t).length := by
  induction t using segment_induction generalizing n out with
  | last s hs =>
    have hs' : s = dot ∨ s = dots := by
      by_contra hno
      exact he ((endsNamed_of_not_mem hs).mpr (not_or.mp hno))
    obtain _ | _ | n := n
    · omega
    · omega
    · rw [cleaned_of_not_mem hs]
      exact removeDotsLoop_unnamed hs' n out
  | cons s t hs ih =>
    obtain ⟨hdots, hpt⟩ := (noParent_cons hs).mp hp
    have het := fun h => he ((endsNamed_cons hs).mpr h)
    rw [List.length_append, List.length_cons] at hn
    obtain _ | n := n
    · omega
    have hrest : t.length + 1 < n := by omega
    by_cases hdot : s = dot
    · rw [hdot, removeDotsLoop_dot, cleaned_dot]
      exact ih hpt het hrest out
    · rw [removeDotsLoop_segment hs hdot hdots, cleaned_cons hs hdot]
      simpa using ih hpt het hrest (out ++ 0x2F :: s)

lemma removeDotsLoop_start_lt (hp : NoParent t) (he : ¬ EndsNamed t) {n : ℕ}
    (hn : t.length < n) : (removeDotsLoop n t []).length < (cleaned t).length := by
  induction t using segment_induction generalizing n with
  | last s hs =>
    have hs' : s = dot ∨ s = dots := by
      by_contra hno
      exact he ((endsNamed_of_not_mem hs).mpr (not_or.mp hno))
    obtain _ | n := n
    · omega
    rw [cleaned_of_not_mem hs]
    rcases hs' with rfl | rfl <;> simp [removeDotsLoop, dot, dots, removeDotsLoop_nil]
  | cons s t hs ih =>
    obtain ⟨hdots, hpt⟩ := (noParent_cons hs).mp hp
    have het := fun h => he ((endsNamed_cons hs).mpr h)
    rw [List.length_append, List.length_cons] at hn
    obtain _ | n := n
    · omega
    by_cases hdot : s = dot
    · have hstep : removeDotsLoop (n + 1) (dot ++ 0x2F :: t) [] = removeDotsLoop n t [] := by
        simp [removeDotsLoop, dot]
      rw [hdot, hstep, cleaned_dot]
      exact ih hpt het (by omega)
    · rw [cleaned_cons hs hdot]
      by_cases hne : s = []
      · subst hne
        exact removeDotsLoop_slash_lt hpt het (by simpa using hn) []
      · have hlen := List.length_pos_of_ne_nil hne
        rw [removeDotsLoop_first hs hne hdot hdots (.inr ⟨t, rfl⟩)]
        exact removeDotsLoop_slash_lt hpt het (by omega) s

/-- A path without parents loses its dots and nothing else, if and only if a name ends it. -/
theorem removeDots_eq_iff (hp : NoParent t) : removeDots t = cleaned t ↔ EndsNamed t := by
  constructor
  · intro h
    by_contra he
    have hlt := removeDotsLoop_start_lt hp he (Nat.lt_succ_self t.length)
    rw [removeDots] at h
    rw [h] at hlt
    exact Nat.lt_irrefl _ hlt
  · exact fun he => removeDotsLoop_start hp he (Nat.lt_succ_self _)

end RemoveDots

/-! ## References -/

/-- The components of a reference. -/
structure Parts where
  /-- The scheme. -/
  scheme : Option Text
  /-- The authority. -/
  authority : Option Text
  /-- The path. -/
  path : Text
  /-- The query. -/
  query : Option Text
  /-- The fragment. -/
  fragment : Option Text

/-- What stands behind the path. -/
def Parts.tail (r : Parts) : Text :=
  r.query.elim [] (0x3F :: ·) ++ r.fragment.elim [] (0x23 :: ·)

/-- The text of the components, as section 5.3 puts them together. -/
def Parts.text (r : Parts) : Text :=
  r.scheme.elim [] (· ++ [0x3A]) ++ (r.authority.elim [] ([0x2F, 0x2F] ++ ·) ++ (r.path ++ r.tail))

/-- Components of a reference of the grammar, as far as they tell one another apart. -/
structure Reference extends Parts where
  /-- The authority ends where the path begins. -/
  authority_ends : ∀ a ∈ authority, ∀ c ∈ a, c ≠ 0x2F ∧ c ≠ 0x3F ∧ c ≠ 0x23
  /-- The path ends where the query or the fragment begins. -/
  path_ends : ∀ c ∈ path, c ≠ 0x3F ∧ c ≠ 0x23
  /-- The query ends where the fragment begins. -/
  query_ends : ∀ q ∈ query, 0x23 ∉ q
  /-- Behind an authority the path is empty or begins with a slash. -/
  path_slash : authority ≠ none → path = [] ∨ path.head? = some 0x2F
  /-- Without one it does not begin like an authority. -/
  path_single : authority = none → ¬ [0x2F, 0x2F] <+: path
  /-- Without a scheme its first segment does not look like one. -/
  path_noscheme : scheme = none → 0x3A ∉ path.takeWhile (· != 0x2F)

/-- A path up to its last slash. -/
def directory (path : Text) : Text := (path.reverse.dropWhile (· != 0x2F)).reverse

lemma directory_append (d : Text) {y : Text} (hy : 0x2F ∉ y) :
    directory (d ++ 0x2F :: y) = d ++ [0x2F] := by
  have hall : ∀ c ∈ y.reverse, (c != 0x2F) = true := fun c hc => by
    simpa using fun heq : c = 0x2F => hy (heq ▸ List.mem_reverse.mp hc)
  have hrev : (d ++ 0x2F :: y).reverse = y.reverse ++ 0x2F :: d.reverse := by simp
  rw [directory, hrev, List.dropWhile_append_of_pos hall]
  simp

/-- A path that begins with a slash is its directory and a last segment. -/
lemma exists_directory {path : Text} (h : path.head? = some 0x2F) :
    ∃ d y, path = d ++ 0x2F :: y ∧ 0x2F ∉ y ∧ (d = [] ∨ d.head? = some 0x2F) := by
  obtain ⟨rest, rfl⟩ := List.head?_eq_some_iff.mp h
  obtain ⟨y, d, heq, hy⟩ := List.eq_append_cons_of_mem
    (List.mem_reverse.mpr (List.mem_cons_self (a := (0x2F : UInt8)) (l := rest)))
  have hpath : 0x2F :: rest = d.reverse ++ 0x2F :: y.reverse := by
    rw [← List.reverse_reverse (0x2F :: rest), heq]
    simp
  refine ⟨d.reverse, y.reverse, hpath, by simpa using hy, ?_⟩
  cases hd : d.reverse with
  | nil => exact .inl rfl
  | cons c cs =>
    rw [hd] at hpath
    exact .inr (congrArg some (List.cons.inj hpath).1.symm)

/-- `merge`. -/
def merge (base : Parts) (path : Text) : Text :=
  if base.authority ≠ none ∧ base.path = [] then 0x2F :: path else directory base.path ++ path

/-- The target of a reference, as section 5.2.2 has it. -/
def resolve (base r : Parts) : Parts :=
  if r.scheme ≠ none then { r with path := removeDots r.path }
  else if r.authority ≠ none then { r with scheme := base.scheme, path := removeDots r.path }
  else
    { scheme := base.scheme
      authority := base.authority
      path :=
        if r.path = [] then base.path
        else if r.path.head? = some 0x2F then removeDots r.path
        else removeDots (merge base r.path)
      query := if r.path = [] then r.query.or base.query else r.query
      fragment := r.fragment }

end Uri
