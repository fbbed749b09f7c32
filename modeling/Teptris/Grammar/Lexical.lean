import Teptris.Library.TomlSyntax
import Teptris.Parse.FastPath
import Teptris.Parse.Progress

/-!
# White space, comments and line ends by the grammar

The skippers of `parser.c` read the white space, the comments and the line ends of the grammar,
and nothing else.
-/

namespace Teptris

open Loop

lemma isNonEol_eq : ∀ c : UInt8, Toml.isNonEol c = !isControl c := by decide +kernel

@[simp] lemma isWschar_eq : Toml.isWschar = isWs := rfl

/-! ## White space -/

section Ws

variable {w q r : Bytes}

/-- White space is passed over. -/
lemma skipWs_append (hw : Toml.IsWs w) (q : Bytes) : skipWs (w ++ q) = skipWs q :=
  List.dropWhile_append_of_pos hw

lemma skipWs_self (hq : ∀ c ∈ q.head?, isWs c = false) : skipWs q = q := by
  cases q with
  | nil => rfl
  | cons c q => exact skipWs_cons q (hq c rfl)

/-- What is passed over is white space. -/
lemma skipWs_split (r : Bytes) : ∃ w, r = w ++ skipWs r ∧ Toml.IsWs w :=
  ⟨r.takeWhile isWs, List.takeWhile_append_dropWhile.symm, fun _ hc => List.mem_takeWhile_imp hc⟩

lemma skipWs_head (r : Bytes) : ∀ c ∈ (skipWs r).head?, isWs c = false := by
  intro c hc
  have h := List.head?_dropWhile_not isWs r
  rw [show (r.dropWhile isWs).head? = some c from hc] at h
  simpa using h

end Ws

/-! ## Comments -/

section Comments

variable {t q r : Bytes}

/-- The input ends, or a line end comes first. -/
def AtLineEnd (q : Bytes) : Prop := q = [] ∨ Toml.StartsNewline q

lemma startsNewline_iff : Toml.StartsNewline q ↔
    q.head? = some Ch.lf ∨ q.head? = some Ch.cr ∧ q[1]? = some Ch.lf := by
  constructor
  · rintro ⟨n, r, hn, rfl⟩
    cases hn with
    | lf => exact .inl rfl
    | crlf => exact .inr ⟨rfl, rfl⟩
  · rintro (h | ⟨h, h'⟩)
    · obtain ⟨r, rfl⟩ := List.head?_eq_some_iff.mp h
      exact ⟨_, r, .lf, rfl⟩
    · obtain ⟨r, rfl⟩ := List.head?_eq_some_iff.mp h
      rw [List.getElem?_cons_succ, ← List.head?_eq_getElem?] at h'
      obtain ⟨r, rfl⟩ := List.head?_eq_some_iff.mp h'
      exact ⟨_, r, .crlf, rfl⟩

lemma commentBody_sound (h : commentBody r = .ok q) :
    ∃ t, r = t ++ q ∧ (∀ c ∈ t, Toml.isNonEol c = true) ∧ AtLineEnd q := by
  induction r with
  | nil =>
    obtain rfl := Except.ok.inj h
    exact ⟨[], rfl, by simp, .inl rfl⟩
  | cons c cs ih =>
    rw [commentBody] at h
    split_ifs at h with hlf hcr hcrlf hctl
    · obtain rfl := Except.ok.inj h
      exact ⟨[], rfl, by simp, .inr (startsNewline_iff.mpr (.inl (by simp [hlf])))⟩
    · obtain rfl := Except.ok.inj h
      refine ⟨[], rfl, by simp, .inr (startsNewline_iff.mpr (.inr ⟨by simp [hcr], ?_⟩))⟩
      rw [List.getElem?_cons_succ, ← List.head?_eq_getElem?, hcrlf]
    · exact absurd h failAt_ne_ok
    · exact absurd h failAt_ne_ok
    · obtain ⟨t, rfl, ht, hq⟩ := ih h
      refine ⟨c :: t, rfl, ?_, hq⟩
      intro d hd
      rcases List.mem_cons.mp hd with rfl | hd
      · rw [isNonEol_eq, Bool.not_eq_true']
        simpa using hctl
      · exact ht d hd

lemma commentBody_complete (ht : ∀ c ∈ t, Toml.isNonEol c = true) (hq : AtLineEnd q) :
    commentBody (t ++ q) = .ok q := by
  induction t with
  | nil =>
    rcases hq with rfl | ⟨n, r, hn, rfl⟩
    · rfl
    · cases hn <;> rfl
  | cons c t ih =>
    have hc : isControl c = false := by
      have := ht c (by simp)
      rwa [isNonEol_eq, Bool.not_eq_true'] at this
    have hlf : c ≠ Ch.lf := by
      rintro rfl
      exact absurd hc (by decide)
    have hcr : c ≠ Ch.cr := by
      rintro rfl
      exact absurd hc (by decide)
    rw [List.cons_append, commentBody, if_neg hlf, if_neg hcr, hc, if_neg (by decide)]
    exact ih fun d hd => ht d (List.mem_cons_of_mem c hd)

/-- A comment, from its `#`. -/
lemma skipComment_sound (hr : r.head? = some Ch.hash) (h : skipComment r = .ok q) :
    ∃ c, r = c ++ q ∧ Toml.IsComment c ∧ AtLineEnd q := by
  obtain ⟨cs, rfl⟩ := List.head?_eq_some_iff.mp hr
  obtain ⟨t, ht, hplain, hq⟩ := commentBody_sound h
  rw [List.drop_succ_cons, List.drop_zero] at ht
  exact ⟨Ch.hash :: t, by rw [ht, List.cons_append], .mk hplain, hq⟩

lemma skipComment_complete (ht : Toml.IsComment t) (hq : AtLineEnd q) :
    skipComment (t ++ q) = .ok q := by
  obtain ⟨ht⟩ := ht
  exact commentBody_complete ht hq

end Comments

/-! ## Gaps -/

/-- What a gap does not go on with. -/
structure EndsGap (q : Bytes) : Prop where
  /-- White space. -/
  ws : ∀ c ∈ q.head?, isWs c = false
  /-- A line end. -/
  newline : ¬ Toml.StartsNewline q
  /-- A comment. -/
  comment : q.head? ≠ some Ch.hash

section Gaps

variable {g q r : Bytes}

/-- A gap that goes on with a line end has one in front. -/
lemma gap_newline (hg : Toml.IsGap g) (h : Toml.StartsNewline (g ++ q)) (hq : EndsGap q) :
    ∃ n t, Toml.IsNewline n ∧ Toml.IsGap t ∧ g = n ++ t := by
  cases hg with
  | nil => exact absurd h hq.newline
  | @ws c t hc ht =>
    rcases startsNewline_iff.mp h with h | ⟨h, -⟩
    all_goals
      obtain rfl := Option.some.inj h
      exact absurd hc (by decide)
  | newline hn ht => exact ⟨_, _, hn, ht, rfl⟩
  | comment hc hn ht =>
    obtain ⟨-⟩ := hc
    rcases startsNewline_iff.mp h with h | ⟨h, -⟩
    all_goals exact absurd (Option.some.inj h) (by decide)

/-- What `tep_skip_ws_nl` passes over in front of something is a gap. -/
lemma skipWsNl_sound (h : skipWsNl r = .ok q) (hne : q ≠ []) :
    ∃ g, r = g ++ q ∧ Toml.IsGap g ∧ EndsGap q := by
  refine loop_rec skipWsNl_shrinks
    (P := fun r x => x = .ok q → ∃ g, r = g ++ q ∧ Toml.IsGap g ∧ EndsGap q) ?_ ?_ ?_ r h
  · intro r e _ hx
    cases hx
  · intro r b hturn hb
    obtain rfl := Except.ok.inj hb
    obtain rfl := skipWsNlTurn_stop hturn
    obtain ⟨c, cs, rfl⟩ := List.exists_cons_of_ne_nil hne
    simp only [skipWsNlTurn] at hturn
    split_ifs at hturn with hws hlf hcrlf hhash
    · cases hturn
    · cases hturn
    · cases hturn
    · obtain ⟨s, -, hs⟩ := map_eq_ok_iff.mp hturn
      cases hs
    refine ⟨[], rfl, .nil, ⟨fun d hd => ?_, ?_, ?_⟩⟩
    · obtain rfl := Option.some.inj hd
      simpa using hws
    · rw [startsNewline_iff]
      rintro (h | ⟨h, h'⟩)
      · exact hlf (Option.some.inj h)
      · rw [List.getElem?_cons_succ, ← List.head?_eq_getElem?] at h'
        exact hcrlf ⟨Option.some.inj h, h'⟩
    · exact fun h => hhash (Option.some.inj h)
  · intro r r' x hturn ih hx
    obtain ⟨g, rfl, hg, hq⟩ := ih hx
    cases r with
    | nil => cases hturn
    | cons c cs =>
      simp only [skipWsNlTurn] at hturn
      split_ifs at hturn with hws hlf hcrlf hhash
      · obtain rfl := Turn.next.inj (Except.ok.inj hturn)
        exact ⟨c :: g, rfl, .ws hws hg, hq⟩
      · obtain rfl := Turn.next.inj (Except.ok.inj hturn)
        subst hlf
        exact ⟨[Ch.lf] ++ g, rfl, .newline .lf hg, hq⟩
      · have hrest := Turn.next.inj (Except.ok.inj hturn)
        obtain ⟨rfl, hlf'⟩ := hcrlf
        obtain ⟨cs, rfl⟩ := List.head?_eq_some_iff.mp hlf'
        obtain rfl : cs = g ++ q := hrest
        exact ⟨[Ch.cr, Ch.lf] ++ g, rfl, .newline .crlf hg, hq⟩
      · obtain ⟨s, hs, hrest⟩ := map_eq_ok_iff.mp hturn
        obtain rfl := Turn.next.inj hrest
        obtain ⟨t, ht, hcomment, hend⟩ := skipComment_sound (by simp [hhash]) hs
        rcases hend with hnil | hstart
        · rw [List.append_eq_nil_iff] at hnil
          exact absurd hnil.2 hne
        · obtain ⟨n, u, hn, hu, rfl⟩ := gap_newline hg hstart hq
          exact ⟨t ++ (n ++ u), by rw [ht]; simp, .comment hcomment hn hu, hq⟩
      · cases hturn

lemma skipWsNl_complete (hg : Toml.IsGap g) (hq : EndsGap q) (hne : q ≠ []) :
    skipWsNl (g ++ q) = .ok q := by
  have hnewline : ∀ {n : Bytes} (r : Bytes), Toml.IsNewline n → skipWsNl (n ++ r) = skipWsNl r := by
    intro n r hn
    cases hn <;> exact loop_next skipWsNl_shrinks rfl
  induction hg with
  | nil =>
    obtain ⟨c, cs, rfl⟩ := List.exists_cons_of_ne_nil hne
    refine loop_stop ?_
    have hws := hq.ws c rfl
    have hlf : c ≠ Ch.lf := by
      rintro rfl
      exact hq.newline ⟨_, cs, .lf, rfl⟩
    have hcrlf : ¬ (c = Ch.cr ∧ cs.head? = some Ch.lf) := by
      rintro ⟨rfl, h⟩
      obtain ⟨cs, rfl⟩ := List.head?_eq_some_iff.mp h
      exact hq.newline ⟨_, cs, .crlf, rfl⟩
    have hhash : c ≠ Ch.hash := fun h => hq.comment (by rw [h]; rfl)
    simp only [List.nil_append, skipWsNlTurn]
    rw [hws, if_neg (by decide), if_neg hlf, if_neg hcrlf, if_neg hhash]
  | @ws c t hc _ ih =>
    rw [← ih, List.cons_append]
    refine loop_next skipWsNl_shrinks ?_
    simp only [skipWsNlTurn]
    exact if_pos hc
  | newline hn _ ih => rw [List.append_assoc, hnewline _ hn, ih]
  | @comment c n t hc hn _ ih =>
    have hend : AtLineEnd (n ++ (t ++ q)) := .inr ⟨n, _, hn, rfl⟩
    have hskip := skipComment_complete hc hend
    obtain ⟨hplain⟩ := hc
    rw [← ih, ← hnewline (t ++ q) hn, List.append_assoc, List.append_assoc]
    refine loop_next skipWsNl_shrinks ?_
    simp only [List.cons_append, skipWsNlTurn] at hskip ⊢
    rw [hskip]
    rfl

/-- What `skip_array_gap` passes over in front of something is a gap. -/
lemma skipArrayGap_sound (h : skipArrayGap r = .ok q) (hne : q ≠ []) :
    ∃ g, r = g ++ q ∧ Toml.IsGap g ∧ EndsGap q := by
  have hws : ∀ {w g : Bytes}, Toml.IsWs w → Toml.IsGap g → Toml.IsGap (w ++ g) := by
    intro w g hw hg
    induction w with
    | nil => exact hg
    | cons c w ih => exact .ws (hw c (by simp)) (ih fun d hd => hw d (List.mem_cons_of_mem c hd))
  refine loop_rec skipArrayGap_shrinks
    (P := fun r x => x = .ok q → ∃ g, r = g ++ q ∧ Toml.IsGap g ∧ EndsGap q) ?_ ?_ ?_ r h
  · intro r e _ hx
    cases hx
  · intro r b hturn hb
    obtain rfl := Except.ok.inj hb
    obtain ⟨w, hsplit, hw⟩ := skipWs_split r
    have hhead := skipWs_head r
    rw [skipArrayGapTurn] at hturn
    change r = w ++ r.dropWhile isWs at hsplit
    change ∀ c ∈ (r.dropWhile isWs).head?, isWs c = false at hhead
    generalize r.dropWhile isWs = s at hturn hsplit hhead
    subst hsplit
    cases s with
    | nil =>
      obtain rfl := Turn.stop.inj (Except.ok.inj hturn)
      exact absurd rfl hne
    | cons c cs =>
      have hnl : skipWsNl (c :: cs) = .ok b →
          ∃ g, w ++ c :: cs = g ++ b ∧ Toml.IsGap g ∧ EndsGap b := by
        intro hskip
        obtain ⟨g, hg, hgap, hend⟩ := skipWsNl_sound hskip hne
        exact ⟨w ++ g, by rw [hg, List.append_assoc], hws hw hgap, hend⟩
      dsimp only at hturn
      split_ifs at hturn with hlf hhash hcr
      · cases hturn
      · obtain ⟨s, hs, hstop⟩ := map_eq_ok_iff.mp hturn
        obtain rfl := Turn.stop.inj hstop
        exact hnl hs
      · obtain ⟨s, hs, hstop⟩ := map_eq_ok_iff.mp hturn
        obtain rfl := Turn.stop.inj hstop
        exact hnl hs
      · obtain rfl := Turn.stop.inj (Except.ok.inj hturn)
        refine ⟨w, rfl, by simpa using hws hw .nil, hhead, ?_, ?_⟩
        · rw [startsNewline_iff]
          rintro (h | ⟨h, -⟩)
          · exact hlf (Option.some.inj h)
          · exact hcr (Option.some.inj h)
        · exact fun h => hhash (Option.some.inj h)
  · intro r r' x hturn ih hx
    obtain ⟨g, rfl, hg, hq⟩ := ih hx
    obtain ⟨w, hsplit, hw⟩ := skipWs_split r
    rw [skipArrayGapTurn] at hturn
    change r = w ++ r.dropWhile isWs at hsplit
    generalize r.dropWhile isWs = s at hturn hsplit
    subst hsplit
    cases s with
    | nil => cases hturn
    | cons c cs =>
      dsimp only at hturn
      split_ifs at hturn with hlf hhash hcr
      · obtain rfl := Turn.next.inj (Except.ok.inj hturn)
        subst hlf
        exact ⟨w ++ ([Ch.lf] ++ g), by simp, hws hw (.newline .lf hg), hq⟩
      · obtain ⟨s, -, hs⟩ := map_eq_ok_iff.mp hturn
        cases hs
      · obtain ⟨s, -, hs⟩ := map_eq_ok_iff.mp hturn
        cases hs
      · cases hturn

lemma skipArrayGap_complete (hg : Toml.IsGap g) (hq : EndsGap q) (hne : q ≠ []) :
    skipArrayGap (g ++ q) = .ok q := by
  have hnl := skipWsNl_complete hg hq hne
  induction hg with
  | nil =>
    obtain ⟨c, cs, rfl⟩ := List.exists_cons_of_ne_nil hne
    have hws : (c :: cs).dropWhile isWs = c :: cs := skipWs_self hq.ws
    have hlf : c ≠ Ch.lf := by
      rintro rfl
      exact hq.newline ⟨_, cs, .lf, rfl⟩
    have hhash : c ≠ Ch.hash := fun h => hq.comment (by rw [h]; rfl)
    refine loop_stop ?_
    rw [List.nil_append] at hnl ⊢
    rw [skipArrayGapTurn, hws]
    dsimp only
    rw [if_neg hlf, if_neg hhash]
    split_ifs with hcr
    · rw [hnl]
      rfl
    · rfl
  | @ws c t hc ht ih =>
    have hturn : skipArrayGapTurn (c :: (t ++ q)) = skipArrayGapTurn (t ++ q) := by
      have hdrop : (c :: (t ++ q)).dropWhile isWs = (t ++ q).dropWhile isWs :=
        List.dropWhile_cons_of_pos hc
      rw [skipArrayGapTurn, skipArrayGapTurn, hdrop]
    have hloop : skipArrayGap (c :: (t ++ q)) = skipArrayGap (t ++ q) := by
      rw [skipArrayGap, loop_eq skipArrayGap_shrinks, hturn, ← loop_eq skipArrayGap_shrinks]
      rfl
    rw [List.cons_append, hloop]
    exact ih (skipWsNl_complete ht hq hne)
  | @newline n t hn ht ih =>
    cases hn with
    | lf =>
      rw [← ih (skipWsNl_complete ht hq hne)]
      exact loop_next skipArrayGap_shrinks rfl
    | crlf => exact loop_stop (congrArg (Except.map Turn.stop) hnl)
  | comment hc hn ht ih =>
    obtain ⟨hplain⟩ := hc
    exact loop_stop (congrArg (Except.map Turn.stop) hnl)

end Gaps

/-! ## The end of a line -/

/-- What stands behind a statement on its line: white space, a comment, and a line end or the
end of the input. -/
def IsLineTail (t q : Bytes) : Prop :=
  ∃ w c n, Toml.IsWs w ∧ Toml.IsRemark c ∧ (Toml.IsNewline n ∨ n = [] ∧ q = []) ∧
    t = w ++ (c ++ n)

section LineTail

variable {t q r : Bytes}

lemma lineEnd_sound (h : lineEnd r = .ok q) :
    ∃ n, (Toml.IsNewline n ∨ n = [] ∧ q = []) ∧ r = n ++ q := by
  cases r with
  | nil =>
    obtain rfl := Except.ok.inj h
    exact ⟨[], .inr ⟨rfl, rfl⟩, rfl⟩
  | cons c cs =>
    simp only [lineEnd] at h
    split_ifs at h with hlf hcrlf
    · obtain rfl := Except.ok.inj h
      subst hlf
      exact ⟨[Ch.lf], .inl .lf, rfl⟩
    · obtain ⟨rfl, hnext⟩ := hcrlf
      obtain ⟨cs, rfl⟩ := List.head?_eq_some_iff.mp hnext
      obtain rfl := Except.ok.inj h
      exact ⟨[Ch.cr, Ch.lf], .inl .crlf, rfl⟩
    · exact absurd h failAt_ne_ok

lemma lineEnd_complete {n : Bytes} (hn : Toml.IsNewline n ∨ n = [] ∧ q = []) :
    lineEnd (n ++ q) = .ok q := by
  rcases hn with hn | ⟨rfl, rfl⟩
  · cases hn <;> rfl
  · rfl

/-- The end of a line comes first, or the end of the input. -/
lemma atLineEnd_of_end {n : Bytes} (hn : Toml.IsNewline n ∨ n = [] ∧ q = []) :
    AtLineEnd (n ++ q) := by
  rcases hn with hn | ⟨rfl, rfl⟩
  · exact .inr ⟨n, q, hn, rfl⟩
  · exact .inl rfl

lemma finishLine_sound (h : finishLine r = .ok q) : ∃ t, IsLineTail t q ∧ r = t ++ q := by
  obtain ⟨w, hsplit, hw⟩ := skipWs_split r
  simp only [finishLine] at h
  split_ifs at h with hhash
  · cases hs : skipComment (skipWs r) with
    | error e =>
      rw [hs] at h
      cases h
    | ok s =>
      rw [hs] at h
      obtain ⟨c, hc, hcomment, -⟩ := skipComment_sound hhash hs
      obtain ⟨n, hn, rfl⟩ := lineEnd_sound h
      exact ⟨_, ⟨w, c, n, hw, .inr hcomment, hn, rfl⟩, by
        rw [hsplit, hc]
        simp only [List.append_assoc]⟩
  · obtain ⟨n, hn, hq⟩ := lineEnd_sound h
    exact ⟨_, ⟨w, [], n, hw, .inl rfl, hn, rfl⟩, by
      rw [hsplit, hq]
      simp only [List.append_assoc, List.nil_append]⟩

lemma finishLine_complete (ht : IsLineTail t q) : finishLine (t ++ q) = .ok q := by
  obtain ⟨w, c, n, hw, hc, hn, rfl⟩ := ht
  have hend := atLineEnd_of_end hn
  have hskip : skipWs (w ++ (c ++ n) ++ q) = c ++ (n ++ q) := by
    rw [List.append_assoc, skipWs_append hw, List.append_assoc]
    refine skipWs_self fun d hd => ?_
    rcases hc with rfl | hc
    · rcases hend with hnil | hstart
      · rw [List.nil_append, hnil] at hd
        cases hd
      · rcases startsNewline_iff.mp hstart with h | ⟨h, -⟩
        all_goals
          rw [List.nil_append, h] at hd
          obtain rfl := Option.some.inj hd
          rfl
    · obtain ⟨hc⟩ := hc
      obtain rfl := Option.some.inj hd
      rfl
  simp only [finishLine]
  rw [hskip]
  rcases hc with rfl | hc
  · have hhash : ([] ++ (n ++ q)).head? ≠ some Ch.hash := by
      rw [List.nil_append]
      rcases hend with hnil | hstart
      · rw [hnil]
        simp
      · rcases startsNewline_iff.mp hstart with h | ⟨h, -⟩
        all_goals
          rw [h]
          decide
    rw [if_neg hhash]
    exact lineEnd_complete hn
  · have hhash : (c ++ (n ++ q)).head? = some Ch.hash := by
      obtain ⟨hc⟩ := hc
      rfl
    rw [skipComment_complete hc hend, if_pos hhash]
    exact lineEnd_complete hn

end LineTail

end Teptris
