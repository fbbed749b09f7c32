import Mathlib.Data.List.TakeWhile
import Teptris.Library.UriReference
import Teptris.Schema.Uri

/-!
# Joins against RFC 3986
-/

namespace Teptris

open Uri (dot dots NoParent EndsNamed cleaned)

/-! ## Dot segments -/

section Dots

variable {buf s u : Bytes} {w r n : ℕ}

/-- The round on `./`. -/
lemma removeDotLoop_dot (hu : buf.drop r = dot ++ 0x2F :: u) :
    removeDotLoop (n + 1) buf w r = removeDotLoop n buf w (r + 2) := by
  have h0 : byteAt buf r = 0x2E := by rw [← Nat.add_zero r, ← byteAt_drop, hu]; rfl
  have h1 : byteAt buf (r + 1) = 0x2F := by rw [← byteAt_drop, hu]; rfl
  rw [removeDotLoop, h0, h1]
  rfl

lemma takeWhile_ne_zero (h : 0 ∉ s) : cstr s = s := by
  have hall : ∀ c ∈ s, decide (c ≠ 0) = true := fun c hc => by
    simpa using fun heq : c = 0 => h (heq ▸ hc)
  exact List.takeWhile_eq_self_iff.2 hall

/-- The segment that is copied, with the slash behind it. -/
lemma segmentAt_eq (hs : 0x2F ∉ s) (h0 : 0 ∉ s ++ 0x2F :: u) (hu : buf.drop r = s ++ 0x2F :: u) :
    segmentAt buf r = s ++ [0x2F] := by
  have hslash : byteAt buf (r + s.length) = 0x2F := by
    rw [← byteAt_drop, hu]
    simp [byteAt]
  rw [segmentAt, stringAt, hu, takeWhile_ne_zero h0, (Uri.takeWhile_segment hs u).1]
  simp only [hslash, if_true]

lemma segmentAt_last (hs : 0x2F ∉ s) (h0 : 0 ∉ s) (hu : buf.drop r = s) :
    segmentAt buf r = s := by
  have hend : byteAt buf (r + s.length) ≠ 0x2F := by
    rw [← byteAt_drop, hu]
    simp [byteAt]
  rw [segmentAt, stringAt, hu, takeWhile_ne_zero h0, (Uri.takeWhile_segment hs []).2]
  simp only [hend, if_false]

/-- The round that copies a segment. -/
lemma removeDotLoop_copy {seg : Bytes} (hne : byteAt buf r ≠ 0)
    (hdot : ¬ (byteAt buf r = 0x2E ∧ byteAt buf (r + 1) = 0x2F))
    (hdots : ¬ (byteAt buf r = 0x2E ∧ byteAt buf (r + 1) = 0x2E ∧ byteAt buf (r + 2) = 0x2F))
    (hseg : segmentAt buf r = seg) :
    removeDotLoop (n + 1) buf w r =
      removeDotLoop n (buf.take w ++ seg ++ buf.drop (w + seg.length)) (w + seg.length)
        (r + seg.length) := by
  rw [removeDotLoop, if_neg hne, if_neg hdot, if_neg hdots, hseg]

/-- What is read next stays where it is, behind what was copied. -/
lemma copied {seg : Bytes} (hw : w ≤ r) (hr : r + seg.length ≤ buf.length) :
    (buf.take w ++ seg ++ buf.drop (w + seg.length)).drop (r + seg.length) =
        buf.drop (r + seg.length) ∧
      (buf.take w ++ seg ++ buf.drop (w + seg.length)).take (w + seg.length) = buf.take w ++ seg ∧
      (buf.take w ++ seg ++ buf.drop (w + seg.length)).length = buf.length := by
  have hlen : (buf.take w ++ seg).length = w + seg.length := by
    rw [List.length_append, List.length_take_of_le (by omega)]
  refine ⟨?_, ?_, ?_⟩
  · rw [List.drop_append, hlen, List.drop_eq_nil_of_le (by omega), List.nil_append, List.drop_drop]
    congr 1
    omega
  · exact List.take_left' hlen
  · rw [List.length_append, hlen, List.length_drop]
    omega

/-- No slash is read where there is none. -/
lemma byteAt_ne_slash (hs : 0x2F ∉ s) (k : ℕ) : byteAt s k ≠ 0x2F := by
  rw [byteAt, List.getD_eq_getElem?_getD]
  cases hk : s[k]? with
  | none => simp
  | some c =>
    rintro rfl
    exact hs (List.mem_of_getElem? hk)

/-- What the loop looks for in front of a segment that is copied. -/
lemma copied_segment (hs : 0x2F ∉ s) (h0 : 0 ∉ s) (hdot : s ≠ dot) (hdots : s ≠ dots) (t : Bytes) :
    byteAt (s ++ 0x2F :: t) 0 ≠ 0 ∧
      ¬ (byteAt (s ++ 0x2F :: t) 0 = 0x2E ∧ byteAt (s ++ 0x2F :: t) 1 = 0x2F) ∧
      ¬ (byteAt (s ++ 0x2F :: t) 0 = 0x2E ∧ byteAt (s ++ 0x2F :: t) 1 = 0x2E ∧
        byteAt (s ++ 0x2F :: t) 2 = 0x2F) := by
  simp only [dot, dots] at hdot hdots
  obtain _ | ⟨a, _ | ⟨b, _ | ⟨c, s⟩⟩⟩ := s
  · simp [byteAt]
  · simp only [List.mem_singleton] at hs h0
    have ha : a ≠ 0x2E := fun h => hdot (by rw [h])
    simp [byteAt, Ne.symm h0, ha]
  · simp only [List.mem_cons, List.not_mem_nil, or_false, not_or] at hs h0
    have hab : a = 0x2E → b ≠ 0x2E := fun ha hb => hdots (by rw [ha, hb])
    simp [byteAt, Ne.symm h0.1, Ne.symm hs.2]
    exact hab
  · simp only [List.mem_cons, not_or] at hs h0
    simp [byteAt, Ne.symm h0.1, Ne.symm hs.2.1, Ne.symm hs.2.2.1]

/-- At the end of the text the loop ends. -/
lemma removeDotLoop_end (hu : buf.drop r = []) (hn : 0 < n) :
    removeDotLoop n buf w r = buf.take w := by
  have hend : byteAt buf r = 0 := by
    rw [← Nat.add_zero r, ← byteAt_drop, hu]
    rfl
  obtain _ | n := n
  · exact absurd hn (Nat.lt_irrefl 0)
  · rw [removeDotLoop, if_pos hend]

/-- Without parents, the loop copies what it reads, but for its dots. -/
lemma removeDotLoop_eq (hu : buf.drop r = u) (h0 : 0 ∉ u) (hp : NoParent u) (hw : w ≤ r)
    (hr : r ≤ buf.length) (hn : u.length < n) :
    removeDotLoop n buf w r = buf.take w ++ cleaned u := by
  induction u using Uri.segment_induction generalizing n buf w r with
  | last s hs =>
    rw [Uri.cleaned_of_not_mem hs]
    have hlen : r + s.length = buf.length := by
      rw [← hu, List.length_drop]
      omega
    have hread : ∀ k, byteAt buf (r + k) = byteAt s k := fun k => by rw [← byteAt_drop, hu]
    cases s with
    | nil => rw [removeDotLoop_end hu (by omega), List.append_nil]
    | cons c s =>
      obtain _ | n := n
      · omega
      have hne : byteAt buf r ≠ 0 := by
        rw [← Nat.add_zero r, hread 0]
        exact fun h => h0 (h ▸ List.mem_cons_self)
      obtain ⟨hdrop, htake, -⟩ := @copied _ _ _ (c :: s) hw (Nat.le_of_eq hlen)
      rw [removeDotLoop_copy hne (fun h => byteAt_ne_slash hs 1 (hread 1 ▸ h.2))
        (fun h => byteAt_ne_slash hs 2 (hread 2 ▸ h.2.2)) (segmentAt_last hs h0 hu),
        removeDotLoop_end ?_ ?_, htake]
      · rw [hdrop]
        exact List.drop_eq_nil_of_le (Nat.le_of_eq hlen.symm)
      · rw [List.length_cons] at hn
        omega
  | cons s t hs ih =>
    obtain ⟨hdots, hpt⟩ := (Uri.noParent_cons hs).mp hp
    have hlen : r + (s ++ 0x2F :: t).length = buf.length := by
      rw [← hu, List.length_drop]
      omega
    rw [List.length_append, List.length_cons] at hlen hn
    have h0s : 0 ∉ s := fun h => h0 (List.mem_append_left _ h)
    have h0t : 0 ∉ t := fun h => h0 (List.mem_append_right _ (List.mem_cons_of_mem _ h))
    obtain _ | n := n
    · omega
    have hrest : buf.drop (r + (s.length + 1)) = t := by
      rw [← List.drop_drop, hu]
      simp
    by_cases hdot : s = dot
    · subst hdot
      rw [removeDotLoop_dot hu, Uri.cleaned_dot]
      exact ih hrest h0t hpt (by omega)
        (by simp only [dot, List.length_cons, List.length_nil] at hlen; omega)
        (by omega)
    · have hread : ∀ k, byteAt buf (r + k) = byteAt (s ++ 0x2F :: t) k := fun k => by
        rw [← byteAt_drop, hu]
      obtain ⟨h1, h2, h3⟩ := copied_segment hs h0s hdot hdots t
      rw [← hread 0, ← hread 1, Nat.add_zero] at h2
      rw [← hread 0, ← hread 1, ← hread 2, Nat.add_zero] at h3
      rw [← hread 0, Nat.add_zero] at h1
      have hseg : (s ++ [0x2F]).length = s.length + 1 := by simp
      obtain ⟨hdrop, htake, hsame⟩ := @copied buf _ _ (s ++ [0x2F]) hw (by omega)
      rw [removeDotLoop_copy h1 h2 h3 (segmentAt_eq hs h0 hu)]
      rw [hseg] at hdrop htake hsame ⊢
      rw [ih (hdrop.trans hrest) h0t hpt (by omega) (by omega) (by omega), htake,
        Uri.cleaned_cons hs hdot]
      simp

/-- `remove_dot_segments` on a path without parents. -/
lemma removeDotSegments_eq {path : Bytes} (h0 : 0 ∉ path) (hp : NoParent path) :
    removeDotSegments path = cleaned path :=
  removeDotLoop_eq (by simp) h0 hp (Nat.le_refl 0) (Nat.zero_le _) (Nat.lt_succ_self _)

/-- On a path without parents `remove_dot_segments` does what RFC 3986 asks for, if and only if a
name ends the path. -/
lemma removeDotSegments_eq_iff {path : Bytes} (h0 : 0 ∉ path) (hp : NoParent path) :
    removeDotSegments path = Uri.removeDots path ↔ EndsNamed path := by
  rw [removeDotSegments_eq h0 hp, eq_comm, Uri.removeDots_eq_iff hp]

end Dots

/-! ## Texts of components -/

/-- A scheme the reader joins against. -/
def IsJoinScheme (sch : Bytes) : Prop :=
  sch = ascii "file" ∨ sch = ascii "http" ∨ sch = ascii "https"

section Texts

variable {sch u : Bytes}

lemma findText_http (u : Bytes) :
    findText (ascii "://") (ascii "http" ++ 0x3A :: 0x2F :: 0x2F :: u) = some 4 := rfl

lemma findText_https (u : Bytes) :
    findText (ascii "://") (ascii "https" ++ 0x3A :: 0x2F :: 0x2F :: u) = some 5 := rfl

lemma isHttp_http (u : Bytes) : isHttp (ascii "http" ++ 0x3A :: 0x2F :: 0x2F :: u) = true := rfl

lemma isHttp_https (u : Bytes) : isHttp (ascii "https" ++ 0x3A :: 0x2F :: 0x2F :: u) = true := rfl

lemma isHttp_file (u : Bytes) : isHttp (ascii "file" ++ 0x3A :: 0x2F :: 0x2F :: u) = false := rfl

lemma startsWith_file (u : Bytes) :
    startsWith (ascii "file" ++ 0x3A :: 0x2F :: 0x2F :: u) "file://" = true := rfl

lemma findIdx_slash {y : Bytes} (hy : 0x2F ∉ y) :
    y.reverse.findIdx? (· == (0x2F : UInt8)) = none := by
  rw [List.findIdx?_eq_none_iff]
  intro c hc
  simpa using fun heq : c = 0x2F => hy (heq ▸ List.mem_reverse.mp hc)

/-- The last slash is where a directory ends. -/
lemma lastSlash_append (d : Bytes) {y : Bytes} (hy : 0x2F ∉ y) :
    lastSlash (d ++ 0x2F :: y) = some d.length := by
  have hrev : (d ++ 0x2F :: y).reverse = y.reverse ++ 0x2F :: d.reverse := by simp
  rw [lastSlash, hrev, List.findIdx?_append, findIdx_slash hy, List.findIdx?_cons]
  simp

lemma lastSlash_none {y : Bytes} (hy : 0x2F ∉ y) : lastSlash y = none := by
  rw [lastSlash, findIdx_slash hy]
  rfl

end Texts

/-! ## Where a join goes well -/

section Joins

variable {B R : Uri.Reference} {sch a : Bytes}

/-- No dot segment stands in front of the last segment of what follows a path. -/
def QuietTail (u : Bytes) : Prop :=
  dot ∉ (Uri.segments u).dropLast ∧ dots ∉ (Uri.segments u).dropLast

/-- A reference that is merged with a directory, as RFC 3986 merges it. -/
structure MergesWell (B R : Uri.Reference) : Prop where
  /-- A fragment would be left out. -/
  fragment : R.fragment = none
  /-- The last slash of the base is one of its path. -/
  base_tail : 0x2F ∉ B.tail
  /-- Nothing leads up. -/
  base_up : dots ∉ Uri.segments (Uri.directory B.path)
  /-- Nothing leads up. -/
  up : NoParent R.path
  /-- The path ends with a name. -/
  named : EndsNamed R.path
  /-- The query has no dot segments. -/
  tail : QuietTail R.tail
  /-- Where the reference has no path, the path of the base is a directory without dots, and no
  query is left out. -/
  empty : R.path = [] → B.path = Uri.directory B.path ∧ (R.query = none → B.query = none) ∧
    dot ∉ Uri.segments (Uri.directory B.path)

/-- A join in the network space that goes well. -/
def JoinsHttp (B R : Uri.Reference) : Prop :=
  if R.path.head? = some 0x2F then
    (B.path = [] → B.tail = []) ∧ dot ∉ Uri.segments R.path ∧ dots ∉ Uri.segments R.path
  else MergesWell B R ∧ dot ∉ Uri.segments (Uri.directory B.path)

/-- A join with a file that goes well. -/
def JoinsFile (B R : Uri.Reference) (a : Bytes) (cap : ℕ) : Prop :=
  if R.path.head? = some 0x2F then
    a = [] ∧ NoParent R.path ∧ EndsNamed R.path ∧ QuietTail R.tail ∧ R.text.length < uriMax ∧
      7 + (Uri.removeDots R.path ++ R.tail).length < cap
  else
    MergesWell B R ∧ B.path ≠ [] ∧ a ≠ dot ∧ a ≠ dots ∧
      7 + (a ++ Uri.directory B.path).length < uriMax

lemma tail_head (r : Uri.Parts) : ∀ c ∈ r.tail.head?, c = 0x3F ∨ c = 0x23 := by
  intro c hc
  rw [Uri.Parts.tail] at hc
  cases hq : r.query <;> cases hf : r.fragment <;> simp [hq, hf] at hc <;> simp [← hc]

lemma base_text (hs : B.scheme = some sch) (ha : B.authority = some a) :
    B.text = sch ++ 0x3A :: 0x2F :: 0x2F :: (a ++ (B.path ++ B.tail)) := by
  simp [Uri.Parts.text, hs, ha]

lemma reference_text (hs : R.scheme = none) (ha : R.authority = none) :
    R.text = R.path ++ R.tail := by
  simp [Uri.Parts.text, hs, ha]

/-- The bytes of a scheme end neither a scheme nor a segment. -/
lemma isSchemeByte_ne {c : UInt8} (h : isSchemeByte c = true) :
    c ≠ 0x2F ∧ c ≠ 0x3F ∧ c ≠ 0x23 := by
  refine ⟨?_, ?_, ?_⟩
  · rintro rfl
    exact absurd h (by decide)
  · rintro rfl
    exact absurd h (by decide)
  · rintro rfl
    exact absurd h (by decide)

/-- A reference without a scheme has none for the reader. -/
lemma hasScheme_reference (hs : R.scheme = none) (ha : R.authority = none) :
    hasScheme R.text = false := by
  by_contra hyes
  rw [Bool.not_eq_false, hasScheme, Bool.and_eq_true, beq_iff_eq] at hyes
  obtain ⟨rest, hrest⟩ := List.head?_eq_some_iff.mp hyes.2
  have hp : ∀ c ∈ R.text.takeWhile isSchemeByte, isSchemeByte c = true :=
    fun c hc => List.mem_takeWhile_imp hc
  have hsplit := List.takeWhile_append_dropWhile (p := isSchemeByte) (l := R.text)
  rw [hrest] at hsplit
  generalize R.text.takeWhile isSchemeByte = p at hp hsplit
  rw [reference_text hs ha] at hsplit
  have htail := tail_head R.toParts
  -- The colon is in the path, and so in its first segment, or at the start of what follows.
  rcases List.append_eq_append_iff.mp hsplit with ⟨c, hpath, hc⟩ | ⟨c, hpc, hc⟩
  · cases c with
    | nil =>
      rcases htail 0x3A (by rw [← List.nil_append R.tail, ← hc]; rfl) with h | h <;> cases h
    | cons d c =>
      obtain ⟨rfl, -⟩ := List.cons.inj hc
      refine R.path_noscheme hs ?_
      have hmem : ∀ e ∈ p, (e != (0x2F : UInt8)) = true := fun e he => by
        simpa using (isSchemeByte_ne (hp e he)).1
      rw [hpath, List.takeWhile_append_of_pos hmem]
      simp
  · cases c with
    | nil => rcases htail 0x3A (by rw [hc]; rfl) with h | h <;> cases h
    | cons d c =>
      have hd : d ∈ p := by
        rw [hpc]
        simp
      rcases htail d (by rw [hc]; rfl) with rfl | rfl
      · exact (isSchemeByte_ne (hp _ hd)).2.1 rfl
      · exact (isSchemeByte_ne (hp _ hd)).2.2 rfl

lemma hasScheme_of_stands {t : Bytes} (h : startsWith t "file://" = true ∨ isHttp t = true) :
    hasScheme t = true := by
  rw [isHttp, Bool.or_eq_true] at h
  rcases h with h | h | h <;> obtain ⟨u, rfl⟩ := List.isPrefixOf_iff_prefix.mp h <;> rfl

/-- A reference begins with a slash if its path does. -/
lemma reference_head (hs : R.scheme = none) (ha : R.authority = none) :
    R.text.head? = some 0x2F ↔ R.path.head? = some 0x2F := by
  rw [reference_text hs ha]
  cases hp : R.path with
  | nil =>
    rw [List.nil_append]
    refine iff_of_false (fun h => ?_) (by simp)
    rcases tail_head R.toParts 0x2F h with h | h <;> cases h
  | cons c path => simp

/-- What `teptris_uri_join` does with a relative reference. -/
lemma uriJoin_reference (hs : R.scheme = none) (ha : R.authority = none) {base : Bytes}
    (hne : base ≠ []) (cap : ℕ) :
    uriJoin (some base) R.text cap =
      if R.path.head? = some 0x2F then .ok (joinAbsolute base R.text cap)
      else if isHttp base then .ok (joinHttp base R.text cap)
      else if startsWith base "file://" then .ok (joinFile base R.text cap)
      else .ok (some (snprint cap R.text)) := by
  have hno := hasScheme_reference hs ha
  have hhttp : isHttp R.text = false := by
    by_contra h
    rw [hasScheme_of_stands (.inr (by simpa using h))] at hno
    cases hno
  have hfile : startsWith R.text "file://" = false := by
    by_contra h
    rw [hasScheme_of_stands (.inl (by simpa using h))] at hno
    cases hno
  simp only [uriJoin, hhttp, hno, hfile, reference_head hs ha, if_neg hne, Bool.false_eq_true,
    if_false]

/-- What follows a path is not taken for one of its segments. -/
lemma tail_behind (r : Uri.Parts) : ∀ c ∈ r.tail.head?, c ≠ 0x2E ∧ c ≠ 0x2F := by
  intro c hc
  rcases tail_head r c hc with rfl | rfl <;> decide

/-- `remove_dot_segments` on a path and what follows it. -/
lemma removeDotSegments_append {path : Bytes} {r : Uri.Parts} (h0 : 0 ∉ path ++ r.tail)
    (hp : NoParent path) (hq : QuietTail r.tail) :
    removeDotSegments (path ++ r.tail) = cleaned path ++ r.tail := by
  rw [removeDotSegments_eq h0 ((Uri.noParent_append (tail_behind r) hq.2).mpr hp),
    Uri.cleaned_append (tail_behind r) hq.1]

/-- The target of a reference whose path is absolute. -/
lemma target_absolute (hB : B.scheme = some sch) (hBa : B.authority = some a)
    (hs : R.scheme = none) (ha : R.authority = none) (hp : R.path.head? = some 0x2F) :
    (Uri.resolve B.toParts R.toParts).text =
      sch ++ 0x3A :: 0x2F :: 0x2F :: (a ++ (Uri.removeDots R.path ++ R.tail)) := by
  have hne : R.path ≠ [] := by
    intro h
    rw [h] at hp
    cases hp
  simp [Uri.resolve, hs, ha, hne, hp, Uri.Parts.text, hB, hBa, Uri.Parts.tail]

/-- The path of a base, up to its last slash and behind it. -/
lemma base_directory (hBa : B.authority = some a) (hpath : B.path ≠ []) :
    ∃ d y, B.path = d ++ 0x2F :: y ∧ 0x2F ∉ y ∧ (d = [] ∨ d.head? = some 0x2F) ∧
      Uri.directory B.path = d ++ [0x2F] := by
  have hslash := (B.path_slash (by rw [hBa]; exact Option.some_ne_none a)).resolve_left hpath
  obtain ⟨d, y, hd, hy, hstart⟩ := Uri.exists_directory hslash
  exact ⟨d, y, hd, hy, hstart, by rw [hd, Uri.directory_append d hy]⟩

/-- The merged path leads nowhere up, and ends with a name. -/
lemma MergesWell.merged (h : MergesWell B R) {d : Bytes} (hd : Uri.directory B.path = d ++ [0x2F]) :
    dots ∉ Uri.segments d ∧ NoParent (Uri.directory B.path ++ R.path) ∧
      EndsNamed (Uri.directory B.path ++ R.path) := by
  have hup : dots ∉ Uri.segments d := by
    have hbase := h.base_up
    rw [hd, Uri.segments_append_slash, List.mem_append, not_or] at hbase
    exact hbase.1
  rw [hd, List.append_assoc, List.singleton_append]
  exact ⟨hup, Uri.noParent_append_slash.mpr ⟨hup, h.up⟩, Uri.endsNamed_append_slash.mpr h.named⟩

/-- The target of a reference that is merged well. -/
lemma target_merged (hB : B.scheme = some sch) (hBa : B.authority = some a)
    (hs : R.scheme = none) (ha : R.authority = none) (hp : R.path.head? ≠ some 0x2F)
    (hpath : B.path ≠ []) (h : MergesWell B R) :
    (Uri.resolve B.toParts R.toParts).text =
      sch ++ 0x3A :: 0x2F :: 0x2F ::
        (a ++ (cleaned (Uri.directory B.path ++ R.path) ++ R.tail)) := by
  obtain ⟨d, y, -, -, -, hd⟩ := base_directory hBa hpath
  obtain ⟨-, hup, hnamed⟩ := h.merged hd
  by_cases hempty : R.path = []
  · obtain ⟨hdir, hquery, hdots⟩ := h.empty hempty
    have hclean : cleaned (Uri.directory B.path ++ R.path) = B.path := by
      rw [hempty, List.append_nil,
        Uri.cleaned_eq_self fun hmem => hdots (List.dropLast_subset _ hmem),
        ← hdir]
    have hor : R.query.or B.query = R.query := by
      cases hq : R.query with
      | none => rw [hquery hq]; rfl
      | some q => rfl
    rw [hclean]
    simp [Uri.resolve, hs, ha, hempty, Uri.Parts.text, hB, hBa, Uri.Parts.tail, hor]
  · rw [← (Uri.removeDots_eq_iff hup).mpr hnamed]
    simp [Uri.resolve, hs, ha, hempty, hp, Uri.Parts.text, hB, hBa, Uri.Parts.tail, Uri.merge,
      hpath]

/-! ### The branches of a join -/

/-- Behind a scheme and its slashes. -/
lemma drop_scheme (sch u : Bytes) :
    (sch ++ 0x3A :: 0x2F :: 0x2F :: u).drop (sch.length + 3) = u := by
  rw [← List.drop_drop, List.drop_left]
  rfl

lemma take_scheme (sch u : Bytes) (k : ℕ) :
    (sch ++ 0x3A :: 0x2F :: 0x2F :: u).take (sch.length + 3 + k) =
      sch ++ 0x3A :: 0x2F :: 0x2F :: u.take k := by
  have h : (sch ++ [0x3A, 0x2F, 0x2F] ++ u).take (sch.length + 3 + k) =
      sch ++ [0x3A, 0x2F, 0x2F] ++ u.take k := by
    have hlen : sch.length + 3 + k = (sch ++ [0x3A, 0x2F, 0x2F]).length + k := by simp
    rw [hlen, List.take_length_add_append]
  simpa using h

/-- The reader finds the scheme. -/
lemma findText_scheme (hsch : sch = ascii "http" ∨ sch = ascii "https") (u : Bytes) :
    findText (ascii "://") (sch ++ 0x3A :: 0x2F :: 0x2F :: u) = some sch.length ∧
      isHttp (sch ++ 0x3A :: 0x2F :: 0x2F :: u) = true := by
  rcases hsch with rfl | rfl <;> exact ⟨rfl, rfl⟩

/-- No slash in an authority. -/
lemma authority_no_slash (hBa : B.authority = some a) : 0x2F ∉ a := fun h =>
  (B.authority_ends a hBa _ h).1 rfl

/-- The authority the reader finds, where the path or nothing at all follows it. -/
lemma authorityEnd_base (hsch : sch = ascii "http" ∨ sch = ascii "https")
    (hB : B.scheme = some sch) (hBa : B.authority = some a) (h : B.path = [] → B.tail = []) :
    authorityEnd B.text = sch.length + 3 + a.length := by
  have hslash : 0x2F ∉ a := authority_no_slash hBa
  have htake : (a ++ (B.path ++ B.tail)).takeWhile (· != 0x2F) = a := by
    rcases B.path_slash (by rw [hBa]; exact Option.some_ne_none a) with hp | hp
    · rw [hp, h hp, List.append_nil, List.append_nil]
      exact (Uri.takeWhile_segment hslash []).2
    · obtain ⟨rest, hrest⟩ := List.head?_eq_some_iff.mp hp
      rw [hrest, List.cons_append]
      exact (Uri.takeWhile_segment hslash _).1
  rw [base_text hB hBa, authorityEnd, (findText_scheme hsch _).1, Option.getD_some, drop_scheme,
    htake]

lemma joinAbsolute_http (hsch : sch = ascii "http" ∨ sch = ascii "https")
    (hB : B.scheme = some sch) (hBa : B.authority = some a) (hs : R.scheme = none)
    (ha : R.authority = none) (hp : R.path.head? = some 0x2F) (h : JoinsHttp B R) (cap : ℕ) :
    ∀ out, joinAbsolute B.text R.text cap = some out →
      out = (Uri.resolve B.toParts R.toParts).text := by
  intro out hout
  rw [JoinsHttp, if_pos hp] at h
  obtain ⟨hends, hdot, hdots⟩ := h
  have hpath : Uri.removeDots R.path = R.path := by
    have hnamed : EndsNamed R.path := fun s hmem => by
      have hmem := List.mem_of_getLast? hmem
      exact ⟨fun heq => hdot (heq ▸ hmem), fun heq => hdots (heq ▸ hmem)⟩
    rw [(Uri.removeDots_eq_iff fun hmem => hdots (List.dropLast_subset _ hmem)).mpr hnamed,
      Uri.cleaned_eq_self fun hmem => hdot (List.dropLast_subset _ hmem)]
  have hend := authorityEnd_base hsch hB hBa hends
  rw [base_text hB hBa] at hend hout
  rw [joinAbsolute, (findText_scheme hsch _).2, if_pos rfl, hend] at hout
  split_ifs at hout
  obtain rfl := Option.some.inj hout
  rw [target_absolute hB hBa hs ha hp, hpath, take_scheme, List.take_left, reference_text hs ha]
  simp

/-- Without a fragment nothing is cut off. -/
lemma pathPart_reference (hs : R.scheme = none) (ha : R.authority = none) (hf : R.fragment = none) :
    pathPart R.text = R.path ++ R.tail := by
  rw [reference_text hs ha, pathPart, List.takeWhile_eq_self_iff]
  intro c hc
  have hne : c ≠ 0x23 := by
    rcases List.mem_append.mp hc with hc | hc
    · exact (R.path_ends c hc).2
    · rw [Uri.Parts.tail, hf] at hc
      cases hq : R.query with
      | none => simp [hq] at hc
      | some q =>
        simp only [hq, Option.elim_some, Option.elim_none, List.append_nil, List.mem_cons] at hc
        rcases hc with rfl | hc
        · decide
        · exact fun heq => R.query_ends q hq (heq ▸ hc)
  simpa using hne

lemma joinHttp_merged (hsch : sch = ascii "http" ∨ sch = ascii "https")
    (hB : B.scheme = some sch) (hBa : B.authority = some a) (hs : R.scheme = none)
    (ha : R.authority = none) (h0 : 0 ∉ R.text) (hp : R.path.head? ≠ some 0x2F)
    (h : JoinsHttp B R) (cap : ℕ) :
    ∀ out, joinHttp B.text R.text cap = some out →
      out = (Uri.resolve B.toParts R.toParts).text := by
  intro out hout
  rw [JoinsHttp, if_neg hp] at h
  obtain ⟨hwell, hdot⟩ := h
  rw [base_text hB hBa] at hout
  have hpart := pathPart_reference hs ha hwell.fragment
  by_cases hpath : B.path = []
  · have hnone : 0x2F ∉ a ++ (B.path ++ B.tail) := by
      rw [hpath, List.nil_append, List.mem_append, not_or]
      exact ⟨authority_no_slash hBa, hwell.base_tail⟩
    simp [joinHttp, (findText_scheme hsch _).1, lastSlash_none hnone] at hout
  · obtain ⟨d, y, hd, hy, -, hdir⟩ := base_directory hBa hpath
    have hlast : lastSlash (a ++ (B.path ++ B.tail)) = some (a ++ d).length := by
      have htext : a ++ (B.path ++ B.tail) = (a ++ d) ++ 0x2F :: (y ++ B.tail) := by
        rw [hd]
        simp
      rw [htext, lastSlash_append]
      rw [List.mem_append, not_or]
      exact ⟨hy, hwell.base_tail⟩
    simp only [joinHttp, (findText_scheme hsch _).1, drop_scheme, hlast, Option.bind_eq_bind,
      Option.bind_some, Option.map_some, hpart] at hout
    split_ifs at hout
    obtain rfl := Option.some.inj hout
    rw [reference_text hs ha] at h0
    have htake : (a ++ (B.path ++ B.tail)).take ((a ++ d).length + 1) = a ++ (d ++ [0x2F]) := by
      have htext : a ++ (B.path ++ B.tail) = (a ++ (d ++ [0x2F])) ++ (y ++ B.tail) := by
        rw [hd]
        simp
      rw [htext]
      exact List.take_left' (by simp; omega)
    have hclean : cleaned (Uri.directory B.path ++ R.path) = (d ++ [0x2F]) ++ cleaned R.path := by
      rw [hdir, Uri.segments_append_slash, List.mem_append, not_or] at hdot
      rw [hdir, List.append_assoc, List.singleton_append, Uri.cleaned_append_slash hdot.1,
        List.append_assoc, List.singleton_append]
    rw [target_merged hB hBa hs ha hp hpath hwell, hclean, Nat.add_assoc, take_scheme, htake,
      removeDotSegments_append h0 hwell.up hwell.tail]
    simp

/-- A text that fits is printed whole. -/
lemma snprint_eq {cap : ℕ} {t : Bytes} (h : t.length < cap) : snprint cap t = t :=
  List.take_of_length_le (by omega)

lemma joinAbsolute_file (hB : B.scheme = some (ascii "file")) (hBa : B.authority = some a)
    (hs : R.scheme = none) (ha : R.authority = none) (h0 : 0 ∉ R.text)
    (hp : R.path.head? = some 0x2F) {cap : ℕ} (h : JoinsFile B R a cap) :
    ∀ out, joinAbsolute B.text R.text cap = some out →
      out = (Uri.resolve B.toParts R.toParts).text := by
  intro out hout
  rw [JoinsFile, if_pos hp] at h
  obtain ⟨rfl, hup, hnamed, htail, hlen, hfits⟩ := h
  have hpath := (Uri.removeDots_eq_iff hup).mpr hnamed
  rw [joinAbsolute, base_text hB hBa, isHttp_file, if_neg Bool.false_ne_true,
    snprint_eq hlen] at hout
  rw [reference_text hs ha] at h0 hout
  rw [hpath] at hfits
  rw [removeDotSegments_append h0 hup htail, snprint_eq] at hout
  · rw [target_absolute hB hBa hs ha hp, hpath, ← Option.some.inj hout]
    rfl
  · rw [List.length_append]
    exact hfits

/-- An authority in front of a path is one more segment. -/
lemma authority_cleaned {p : Bytes} (hslash : 0x2F ∉ a) (hdot : a ≠ dot) (hdots : a ≠ dots)
    (hp : p.head? = some 0x2F) (hup : NoParent p) :
    NoParent (a ++ p) ∧ cleaned (a ++ p) = a ++ cleaned p := by
  obtain ⟨z, rfl⟩ := List.head?_eq_some_iff.mp hp
  have hnil : (0x2F : UInt8) ∉ ([] : Bytes) := by simp
  have hz : NoParent z := ((Uri.noParent_cons hnil).mp hup).2
  have hclean : cleaned (0x2F :: z) = 0x2F :: cleaned z := Uri.cleaned_cons hnil (by decide) z
  rw [hclean]
  exact ⟨(Uri.noParent_cons hslash).mpr ⟨hdots, hz⟩, Uri.cleaned_cons hslash hdot z⟩

lemma joinFile_merged (hB : B.scheme = some (ascii "file")) (hBa : B.authority = some a)
    (hs : R.scheme = none) (ha : R.authority = none) (hB0 : 0 ∉ B.text) (h0 : 0 ∉ R.text)
    (hp : R.path.head? ≠ some 0x2F) {cap : ℕ} (h : JoinsFile B R a cap) :
    ∀ out, joinFile B.text R.text cap = some out →
      out = (Uri.resolve B.toParts R.toParts).text := by
  intro out hout
  rw [JoinsFile, if_neg hp] at h
  obtain ⟨hwell, hpath, hdot, hdots, hlen⟩ := h
  obtain ⟨d, y, hd, hy, hstart, hdir⟩ := base_directory hBa hpath
  obtain ⟨-, hup, -⟩ := hwell.merged hdir
  have htext : B.text =
      (ascii "file" ++ 0x3A :: 0x2F :: 0x2F :: (a ++ d)) ++ 0x2F :: (y ++ B.tail) := by
    rw [base_text hB hBa, hd]
    simp
  have hbehind : 0x2F ∉ y ++ B.tail := by
    rw [List.mem_append, not_or]
    exact ⟨hy, hwell.base_tail⟩
  have hout_dir : uriDir B.text uriMax =
      ascii "file" ++ 0x3A :: 0x2F :: 0x2F :: (a ++ Uri.directory B.path) := by
    have hmin : (ascii "file" ++ 0x3A :: 0x2F :: 0x2F :: (a ++ d)).length + 1 ≤ uriMax - 1 := by
      rw [hdir] at hlen
      simp only [ascii, List.length_append, List.length_cons, List.length_nil, List.length_map,
        String.length_toList] at hlen ⊢
      have hfour : "file".length = 4 := rfl
      omega
    have hsplit : (ascii "file" ++ 0x3A :: 0x2F :: 0x2F :: (a ++ d)) ++ 0x2F :: (y ++ B.tail) =
        (ascii "file" ++ 0x3A :: 0x2F :: 0x2F :: (a ++ (d ++ [0x2F]))) ++ (y ++ B.tail) := by simp
    rw [uriDir, htext, lastSlash_append _ hbehind]
    simp only
    rw [Nat.min_eq_left hmin, hdir, hsplit]
    exact List.take_left' (by simp; omega)
  have hstart' : (Uri.directory B.path ++ R.path).head? = some 0x2F := by
    rw [hdir]
    rcases hstart with rfl | hstart
    · rfl
    · obtain ⟨rest, rfl⟩ := List.head?_eq_some_iff.mp hstart
      rfl
  obtain ⟨hup', hclean⟩ := authority_cleaned (authority_no_slash hBa) hdot hdots hstart' hup
  have hjoined : uriDir B.text uriMax ++ pathPart R.text =
      ascii "file" ++ 0x3A :: 0x2F :: 0x2F ::
        (a ++ (Uri.directory B.path ++ R.path) ++ R.tail) := by
    rw [hout_dir, pathPart_reference hs ha hwell.fragment]
    simp
  have hnul : 0 ∉ a ++ (Uri.directory B.path ++ R.path) ++ R.tail := by
    rw [base_text hB hBa, hd] at hB0
    rw [reference_text hs ha] at h0
    rw [hdir]
    simp only [List.mem_append, List.mem_cons, not_or] at hB0 h0 ⊢
    tauto
  simp only [joinFile, hjoined] at hout
  split_ifs at hout with hlong hfile
  · have hdrop : removeDotSegments ((ascii "file" ++ 0x3A :: 0x2F :: 0x2F ::
        (a ++ (Uri.directory B.path ++ R.path) ++ R.tail)).drop 7) =
        a ++ cleaned (Uri.directory B.path ++ R.path) ++ R.tail := by
      rw [← hclean, ← removeDotSegments_append hnul hup' hwell.tail]
      rfl
    rw [hdrop] at hout
    rw [target_merged hB hBa hs ha hp hpath hwell, ← Option.some.inj hout,
      ← List.append_assoc a (cleaned _)]
    rfl
  · exact absurd (startsWith_file _) hfile

/-- A join that goes well: the reference names no authority, which the reader would take for a
path. -/
def JoinsWell (cap : ℕ) (B R : Uri.Reference) : Prop :=
  R.authority = none ∧
    (B.scheme = some (ascii "file") ∧ JoinsFile B R (B.authority.getD []) cap ∨
      (B.scheme = some (ascii "http") ∨ B.scheme = some (ascii "https")) ∧ JoinsHttp B R)

/-- The join of a base of a file or of the network space with a reference that has no scheme. -/
lemma uriJoin_target {cap : ℕ} {B R : Uri.Reference} (hBa : B.authority ≠ none)
    (hs : R.scheme = none) (hB0 : 0 ∉ B.text) (h0 : 0 ∉ R.text) (h : JoinsWell cap B R)
    {out : Bytes} (hout : uriJoin (some B.text) R.text cap = .ok (some out)) :
    out = (Uri.resolve B.toParts R.toParts).text := by
  obtain ⟨a, hBa⟩ := Option.ne_none_iff_exists'.mp hBa
  obtain ⟨ha, hjoin⟩ := h
  rw [hBa, Option.getD_some] at hjoin
  have hne : B.text ≠ [] := by
    rcases hjoin with ⟨hB, -⟩ | ⟨hB | hB, -⟩ <;>
    · rw [base_text hB hBa]
      exact List.cons_ne_nil _ _
  rw [uriJoin_reference hs ha hne] at hout
  by_cases hp : R.path.head? = some 0x2F
  · rw [if_pos hp] at hout
    have hout := Except.ok.inj hout
    rcases hjoin with ⟨hB, hfile⟩ | ⟨hB | hB, hhttp⟩
    · exact joinAbsolute_file hB hBa hs ha h0 hp hfile out hout
    · exact joinAbsolute_http (.inl rfl) hB hBa hs ha hp hhttp cap out hout
    · exact joinAbsolute_http (.inr rfl) hB hBa hs ha hp hhttp cap out hout
  · rw [if_neg hp] at hout
    rcases hjoin with ⟨hB, hfile⟩ | ⟨hB | hB, hhttp⟩
    · have hnet : isHttp B.text = false := by rw [base_text hB hBa]; rfl
      have hstart : startsWith B.text "file://" = true := by rw [base_text hB hBa]; rfl
      rw [hnet, if_neg Bool.false_ne_true, hstart, if_pos rfl] at hout
      exact joinFile_merged hB hBa hs ha hB0 h0 hp hfile out (Except.ok.inj hout)
    · have hnet : isHttp B.text = true := by rw [base_text hB hBa]; rfl
      rw [hnet, if_pos rfl] at hout
      exact joinHttp_merged (.inl rfl) hB hBa hs ha h0 hp hhttp cap out (Except.ok.inj hout)
    · have hnet : isHttp B.text = true := by rw [base_text hB hBa]; rfl
      rw [hnet, if_pos rfl] at hout
      exact joinHttp_merged (.inr rfl) hB hBa hs ha h0 hp hhttp cap out (Except.ok.inj hout)

end Joins

/-- The base `http://h/a/b`. -/
def sampleBase : Uri.Reference where
  scheme := some (ascii "http")
  authority := some (ascii "h")
  path := ascii "/a/b"
  query := none
  fragment := none
  authority_ends := by decide +kernel
  path_ends := by decide +kernel
  query_ends := by decide
  path_slash := fun _ => .inr rfl
  path_single := fun h => nomatch h
  path_noscheme := fun h => nomatch h

/-- The reference `./c?q`. -/
def sampleReference : Uri.Reference where
  scheme := none
  authority := none
  path := ascii "./c"
  query := some (ascii "q")
  fragment := none
  authority_ends := by decide
  path_ends := by decide +kernel
  query_ends := by decide
  path_slash := fun h => absurd rfl h
  path_single := fun _ => by decide
  path_noscheme := fun _ => by decide

end Teptris
