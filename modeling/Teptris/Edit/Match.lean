import Teptris.Edit.Editor
import Teptris.Edit.Span

/-!
# Key paths by their text

A target of the editor is a dotted path of bare names.  `edit_match_path` compares it with the
text of a key on a line: what it takes for the target denotes the target, and of the keys that
denote the target only those with an escape are missed.
-/

namespace Teptris

open Loop

/-! ## Dotted paths -/

/-- A name that needs no quotes. -/
def IsBareName (k : Bytes) : Prop := k ≠ [] ∧ ∀ c ∈ k, isBareKey c = true

/-- Names with a dot in front of each. -/
def dotTail : List Bytes → Bytes
  | [] => []
  | k :: ks => Ch.dot :: (k ++ dotTail ks)

/-- Names with dots between them. -/
def dotted (ks : List Bytes) : Bytes := (dotTail ks).drop 1

section Dotted

variable {a b k u v : Bytes} {ks ks' : List Bytes} {c : UInt8}

lemma dotted_cons (k : Bytes) (ks : List Bytes) : dotted (k :: ks) = k ++ dotTail ks := rfl

lemma dotTail_append (ks ks' : List Bytes) : dotTail (ks ++ ks') = dotTail ks ++ dotTail ks' := by
  induction ks with
  | nil => rfl
  | cons k ks ih => simp [dotTail, ih]

lemma dotted_append (hks : ks ≠ []) (ks' : List Bytes) :
    dotted (ks ++ ks') = dotted ks ++ dotTail ks' := by
  obtain ⟨k, ks, rfl⟩ := List.exists_cons_of_ne_nil hks
  rw [List.cons_append, dotted_cons, dotted_cons, dotTail_append, List.append_assoc]

lemma dotTail_eq (hks : ks ≠ []) : dotTail ks = Ch.dot :: dotted ks := by
  obtain ⟨k, ks, rfl⟩ := List.exists_cons_of_ne_nil hks
  rfl

/-- A byte of a bare name means nothing to the editor. -/
lemma isBareKey_plain (hc : isBareKey c = true) : c ≠ Ch.squote ∧ c ≠ Ch.dquote ∧ c ≠ Ch.dot ∧
    c ≠ Ch.bslash ∧ c ≠ Ch.eq ∧ c ≠ Ch.lbrack ∧ c ≠ Ch.rbrack ∧ editIsWs c = false := by
  refine ⟨?_, ?_, ?_, ?_, ?_, ?_, ?_, isWs_of_isBareKey hc⟩
  all_goals
    rintro rfl
    exact absurd hc (by decide)

lemma dotTail_bytes (hks : ∀ k ∈ ks, IsBareName k) :
    ∀ c ∈ dotTail ks, isBareKey c = true ∨ c = Ch.dot := by
  induction ks with
  | nil => exact fun _ h => absurd h List.not_mem_nil
  | cons k ks ih =>
    intro c hc
    rw [dotTail, List.mem_cons, List.mem_append] at hc
    rcases hc with rfl | hc | hc
    · exact .inr rfl
    · exact .inl ((hks k (by simp)).2 c hc)
    · exact ih (fun l hl => hks l (List.mem_cons_of_mem k hl)) c hc

lemma dotted_bytes (hks : ∀ k ∈ ks, IsBareName k) :
    ∀ c ∈ dotted ks, isBareKey c = true ∨ c = Ch.dot := fun c hc =>
  dotTail_bytes hks c (List.mem_of_mem_drop hc)

/-- Neither end of a dotted path is white space. -/
lemma editTrim_dotted (hks : ∀ k ∈ ks, IsBareName k) : editTrim (dotted ks) = dotted ks := by
  have hbyte : ∀ c ∈ dotted ks, editIsWs c = false := by
    intro c hc
    rcases dotted_bytes hks c hc with hc | rfl
    · exact (isBareKey_plain hc).2.2.2.2.2.2.2
    · rfl
  have hfront : editSkipWs (dotted ks) = dotted ks := by
    refine (Runs.cut (a := []) (by simp) fun c hc => hbyte c (List.mem_of_mem_head? hc)).2
  rw [editTrim, hfront]
  have hback := Runs.trail (p := editIsWs) (a := dotted ks) (b := [])
    (fun c hc => hbyte c (List.mem_of_getLast? hc)) (by simp)
  rwa [List.append_nil] at hback

lemma dotted_ne_nil (hks : ∀ k ∈ ks, IsBareName k) (hne : ks ≠ []) : dotted ks ≠ [] := by
  obtain ⟨k, ks, rfl⟩ := List.exists_cons_of_ne_nil hne
  rw [dotted_cons]
  exact fun h => (hks k (by simp)).1 (List.append_eq_nil_iff.mp h).1

/-- A dotted path is cut at a dot between two names. -/
lemma dotted_split (hks : ∀ k ∈ ks, IsBareName k) (h : dotted ks = a ++ Ch.dot :: b) :
    ∃ us vs, ks = us ++ vs ∧ us ≠ [] ∧ vs ≠ [] ∧ a = dotted us ∧ b = dotted vs := by
  cases ks with
  | nil => simp [dotted, dotTail] at h
  | cons k ks =>
    induction ks generalizing k a with
    | nil =>
      have hdot : Ch.dot ∈ k := by simp [dotTail, dotted_cons] at h; simp [h]
      exact absurd rfl (isBareKey_plain ((hks k (by simp)).2 _ hdot)).2.2.1
    | cons l ks ih =>
      rw [dotted_cons] at h
      rcases List.append_eq_append_iff.mp h with ⟨a', rfl, ha⟩ | ⟨k', rfl, hk⟩
      · cases a' with
        | nil =>
          rw [List.nil_append] at ha
          rw [List.append_nil]
          exact ⟨[k], l :: ks, rfl, by simp, by simp, by simp [dotted_cons, dotTail],
            (List.cons.inj ha).2.symm⟩
        | cons d a' =>
          rw [dotTail_eq (List.cons_ne_nil l ks), List.cons_append] at ha
          obtain ⟨rfl, hrest⟩ := List.cons.inj ha
          obtain ⟨us, vs, hsplit, hus, hvs, rfl, rfl⟩ :=
            ih l (fun m hm => hks m (List.mem_cons_of_mem k hm)) hrest
          exact ⟨k :: us, vs, by rw [hsplit, List.cons_append], by simp, hvs,
            by rw [dotted_cons, dotTail_eq hus], rfl⟩
      · cases k' with
        | nil =>
          rw [List.nil_append] at hk
          exact ⟨[a], l :: ks, by simp, by simp, by simp, by simp [dotted_cons, dotTail],
            (List.cons.inj hk).2⟩
        | cons d k' =>
          obtain ⟨rfl, -⟩ := List.cons.inj hk
          exact absurd rfl
            (isBareKey_plain ((hks _ List.mem_cons_self).2 Ch.dot (by simp))).2.2.1

/-- A dotted path is written in one way. -/
lemma dotted_inj (hks : ∀ k ∈ ks, IsBareName k) (hks' : ∀ k ∈ ks', IsBareName k)
    (h : dotted ks = dotted ks') : ks = ks' := by
  induction ks generalizing ks' with
  | nil =>
    by_contra hne
    exact dotted_ne_nil hks' (Ne.symm hne) h.symm
  | cons k ks ih =>
    obtain ⟨l, ls, rfl⟩ : ∃ l ls, ks' = l :: ls :=
      List.exists_cons_of_ne_nil fun h' => dotted_ne_nil hks (by simp) (by rw [h, h']; rfl)
    have hcut : ∀ {k : Bytes} {ks : List Bytes}, (∀ l ∈ k :: ks, IsBareName l) →
        (dotted (k :: ks)).takeWhile isBareKey = k ∧
          (dotted (k :: ks)).dropWhile isBareKey = dotTail ks := by
      intro k ks hks
      refine Runs.cut (hks k (by simp)).2 fun c hc => ?_
      cases ks with
      | nil => cases hc
      | cons l ls =>
        obtain rfl := Option.some.inj hc
        rfl
    obtain ⟨hk, htail⟩ := hcut hks
    obtain ⟨hl, htail'⟩ := hcut hks'
    rw [h, hl] at hk
    rw [h, htail'] at htail
    rw [hk, ih (fun m hm => hks m (List.mem_cons_of_mem k hm))
      (fun m hm => hks' m (List.mem_cons_of_mem l hm)) (by rw [dotted, dotted, htail])]

end Dotted

/-! ## One component -/

section Component

variable {basic : Bool} {q c : UInt8} {k t s r x : Bytes} {ci : ℕ}

/-- More bytes than the component has. -/
lemma editMatchQuoted_over {skip : Bool} (h : k.length < ci) :
    editMatchQuoted q k skip ci r = none := by
  fun_induction editMatchQuoted q k skip ci r with
  | case1 => rfl
  | case2 ci c r ih => exact ih h
  | case3 => exact absurd h (lt_irrefl _)
  | case4 => rfl
  | case5 => rfl
  | case6 => rfl
  | case7 ci c r _ _ _ _ ih => exact ih (Nat.lt_succ_of_lt h)
  | case8 ci c r _ _ _ _ ih => exact ih (Nat.lt_succ_of_lt h)
  | case9 => rfl

lemma quote_ne_lf (basic : Bool) : Toml.quote basic ≠ Ch.lf := by cases basic <;> decide

/-- A byte of a quoted key that stands for itself. -/
lemma editMatchQuoted_char (hc : Toml.isOrdinary basic c = true) :
    editMatchQuoted (Toml.quote basic) k false ci (c :: r) =
      if k[ci]? = some c then editMatchQuoted (Toml.quote basic) k false (ci + 1) r else none := by
  obtain ⟨hquote, hbslash⟩ := passed_of_ordinary hc
  have hlf : c ≠ Ch.lf := (Toml.isOrdinary_plain hc).1
  rw [editMatchQuoted, if_neg hquote, if_neg hlf, if_neg fun h => hbslash ⟨h.1, h.2.1⟩]

/-- What matches in quotes is the component itself, without an escape. -/
lemma editMatchQuoted_sound (hk : ∀ c ∈ k, isBareKey c = true) (h : Toml.IsChars basic t s)
    (hci : ci ≤ k.length)
    (hmatch : editMatchQuoted (Toml.quote basic) k false ci (t ++ Toml.quote basic :: r) =
      some x) : x = r ∧ s = k.drop ci ∧ Ch.bslash ∉ t := by
  induction h generalizing ci with
  | nil =>
    rw [List.nil_append, editMatchQuoted, if_pos rfl] at hmatch
    split_ifs at hmatch with hlen
    rw [hlen, List.drop_length]
    exact ⟨(Option.some.inj hmatch).symm, rfl, List.not_mem_nil⟩
  | @char c t s hc _ ih =>
    rw [List.cons_append, editMatchQuoted_char hc] at hmatch
    split_ifs at hmatch with hget
    obtain ⟨hlt, rfl⟩ := List.getElem?_eq_some_iff.mp hget
    obtain ⟨hx, hs, ht⟩ := ih hlt hmatch
    refine ⟨hx, by rw [hs, List.getElem_cons_drop hlt], fun h => ?_⟩
    rcases List.mem_cons.mp h with h | h
    · exact (isBareKey_plain (hk _ (List.getElem_mem hlt))).2.2.2.1 h.symm
    · exact ht h
  | @escape e y t s hb =>
    -- no byte of the component is the backslash, and behind its end nothing matches
    subst hb
    rw [List.cons_append, editMatchQuoted, if_neg (by decide), if_neg (by decide),
      if_pos ⟨rfl, rfl, by simp⟩] at hmatch
    split_ifs at hmatch with hget
    rcases Nat.lt_or_ge ci k.length with hlt | hge
    · refine absurd ⟨hlt, fun h => ?_⟩ hget
      exact (isBareKey_plain (hk _ (List.mem_of_getElem? h))).2.2.2.1 rfl
    · rw [editMatchQuoted_over (Nat.lt_succ_of_le hge)] at hmatch
      cases hmatch

/-- A component in quotes matches itself. -/
lemma editMatchQuoted_complete (h : Toml.IsChars basic t s) (ht : Ch.bslash ∉ t)
    (hci : ci ≤ k.length) (hs : s = k.drop ci) (r : Bytes) :
    editMatchQuoted (Toml.quote basic) k false ci (t ++ Toml.quote basic :: r) = some r := by
  induction h generalizing ci with
  | nil =>
    have hlen : ci = k.length := le_antisymm hci (List.drop_eq_nil_iff.mp hs.symm)
    rw [List.nil_append, editMatchQuoted, if_pos rfl, if_pos hlen]
  | @char c t s hc _ ih =>
    have hlt : ci < k.length := by
      by_contra hge
      rw [List.drop_eq_nil_of_le (Nat.le_of_not_lt hge)] at hs
      cases hs
    rw [List.drop_eq_getElem_cons hlt] at hs
    obtain ⟨rfl, htail⟩ := List.cons.inj hs
    rw [List.cons_append, editMatchQuoted_char hc, if_pos (List.getElem?_eq_getElem hlt)]
    exact ih (fun h => ht (List.mem_cons_of_mem _ h)) hlt htail
  | escape => exact absurd List.mem_cons_self ht

/-- What may stand behind a key on its line. -/
def EndsKey (r : Bytes) : Prop := ∀ c ∈ r.head?, c = Ch.dot ∨ editIsWs c = true ∨ c = Ch.eq

lemma EndsKey.bare (hr : EndsKey r) : ∀ c ∈ r.head?, isBareKey c = false := by
  intro c hc
  rcases hr c hc with rfl | h | rfl
  · decide
  · exact Bool.eq_false_iff.mpr fun hb => by simp [isBareKey_plain hb] at h
  · decide

/-- A bare key matches itself only. -/
lemma editMatchComponent_bare (hk : IsBareName k) (ht : IsBareName t) (hr : EndsKey r) :
    editMatchComponent (t ++ r) k = if t = k then some r else none := by
  have hends : editEndsBare r = true := by
    rw [editEndsBare]
    cases hhead : r.head? with
    | none => rfl
    | some c =>
      rcases hr c hhead with rfl | hc | rfl
      · rfl
      · simp [hc]
      · rfl
  obtain ⟨c, t, rfl⟩ := List.exists_cons_of_ne_nil ht.1
  have hquote : ¬ (c = Ch.squote ∨ c = Ch.dquote) := by
    have hplain := isBareKey_plain (ht.2 c (by simp))
    exact not_or.mpr ⟨hplain.1, hplain.2.1⟩
  rw [List.cons_append, editMatchComponent, if_neg hquote, if_neg hk.1, ← List.cons_append]
  by_cases heq : c :: t = k
  · subst heq
    rw [if_pos rfl, if_pos ⟨List.prefix_append _ _, by rwa [List.drop_left]⟩, List.drop_left]
  · rw [if_neg heq, if_neg]
    rintro ⟨⟨y, hy⟩, hnext⟩
    -- both names end where the bytes of bare keys end
    have hstop : ∀ d ∈ y.head?, isBareKey d = false := by
      rw [← hy, List.drop_left] at hnext
      have hends : ∀ c, (c == Ch.dot || editIsWs c || c == Ch.eq || c == Ch.rbrack) = true →
          isBareKey c = false := by
        intro c hc
        refine Bool.eq_false_iff.mpr fun hb => ?_
        obtain ⟨-, -, hdot, -, heq, -, hrbrack, hws⟩ := isBareKey_plain hb
        simp [hdot, heq, hrbrack, hws] at hc
      intro d hd
      rw [editEndsBare, Option.mem_def.mp hd] at hnext
      exact hends d hnext
    have hcut := (Runs.cut (p := isBareKey) hk.2 hstop).1
    rw [hy, (Runs.cut (p := isBareKey) ht.2 hr.bare).1] at hcut
    exact heq hcut

/-- What matches a component denotes it, without an escape. -/
lemma editMatchComponent_sound (hk : IsBareName k) (ht : Toml.IsKey t s) (hr : EndsKey r)
    (h : editMatchComponent (t ++ r) k = some x) : x = r ∧ s = k ∧ Ch.bslash ∉ t := by
  cases ht with
  | bare ht hne =>
    rw [editMatchComponent_bare hk ⟨hne, ht⟩ hr] at h
    split_ifs at h with heq
    exact ⟨(Option.some.inj h).symm, heq, fun h => (isBareKey_plain (ht _ h)).2.2.2.1 rfl⟩
  | quoted hquoted =>
    obtain @⟨basic, t, s, hchars⟩ := hquoted
    rw [List.cons_append, editMatchComponent, if_pos (quote_cases basic).symm,
      List.append_assoc] at h
    obtain ⟨hx, hs, ht⟩ := editMatchQuoted_sound hk.2 hchars (Nat.zero_le _) h
    refine ⟨hx, hs, fun h => ?_⟩
    rcases List.mem_cons.mp h with h | h
    · cases basic <;> exact absurd h (by decide)
    · rcases List.mem_append.mp h with h | h
      · exact ht h
      · cases basic <;> exact absurd h (by decide)

/-- A key without an escape matches where it denotes the component. -/
lemma editMatchComponent_complete (hk : IsBareName k) (ht : Toml.IsKey t k)
    (hplain : Ch.bslash ∉ t) (hr : EndsKey r) : editMatchComponent (t ++ r) k = some r := by
  cases ht with
  | bare ht hne => rw [editMatchComponent_bare hk ⟨hne, ht⟩ hr, if_pos rfl]
  | quoted hquoted =>
    obtain @⟨basic, t, s, hchars⟩ := hquoted
    rw [List.cons_append, editMatchComponent, if_pos (quote_cases basic).symm,
      List.append_assoc]
    exact editMatchQuoted_complete hchars (fun h => hplain (by simp [h])) (Nat.zero_le _) rfl r

/-- No key stands there. -/
lemma editMatchComponent_none (hk : IsBareName k)
    (hr : ∀ c ∈ r.head?, isBareKey c = false ∧ c ≠ Ch.squote ∧ c ≠ Ch.dquote) :
    editMatchComponent r k = none := by
  cases r with
  | nil => rfl
  | cons c r =>
    obtain ⟨hc, hs, hd⟩ := hr c rfl
    rw [editMatchComponent, if_neg (not_or.mpr ⟨hs, hd⟩), if_neg hk.1, if_neg]
    rintro ⟨⟨y, hy⟩, -⟩
    obtain ⟨d, k, rfl⟩ := List.exists_cons_of_ne_nil hk.1
    obtain ⟨rfl, -⟩ := List.cons.inj hy
    have hbare := hk.2 d (by simp)
    rw [hc] at hbare
    cases hbare

end Component

/-! ## Whole paths -/

section Paths

variable {k p path t w r x : Bytes} {ks names : List Bytes} {quoted : Bool} {c : UInt8}

lemma editCut_length {y : Bytes × Bytes} (h : editCut quoted path = some y) :
    y.2.length ≤ path.length := by
  fun_induction editCut quoted path generalizing y with
  | case1 => cases h
  | case2 => exact (Option.some.inj h) ▸ Nat.zero_le _
  | case3 quoted c r _ ih =>
    obtain ⟨z, hz, rfl⟩ := Option.map_eq_some_iff.mp h
    exact (ih hz).trans (Nat.le_succ _)
  | case4 => exact (Option.some.inj h) ▸ le_rfl
  | case5 quoted c r _ _ ih =>
    obtain ⟨z, hz, rfl⟩ := Option.map_eq_some_iff.mp h
    exact (ih hz).trans (Nat.le_succ _)

lemma editPath_shrinks : Shrinks editPathTurn (fun s => s.2.length) := by
  rintro ⟨p, path⟩ s' h
  simp only [editPathTurn] at h
  split at h
  · cases h
  next comp rest hcut =>
  split_ifs at h with htrim hrest
  · split at h <;> cases h
  split at h
  · cases h
  obtain rfl := Turn.next.inj (Except.ok.inj h)
  have hlen : rest.length ≤ path.length :=
    (editCut_length hcut).trans (List.length_dropWhile_le editIsWs path)
  have hpos : 0 < rest.length := List.length_pos_iff.mpr hrest
  simp only [List.length_drop]
  omega

/-- The first name of a dotted path. -/
lemma editCut_dotted (hk : ∀ c ∈ k, isBareKey c = true) (ks : List Bytes) :
    editCut false (k ++ dotTail ks) = some (k, dotTail ks) := by
  induction k with
  | nil => cases ks <;> rfl
  | cons c k ih =>
    obtain ⟨hs, hd, hdot, -⟩ := isBareKey_plain (hk c (by simp))
    rw [List.cons_append, editCut, if_neg (not_or.mpr ⟨hs, hd⟩), if_neg fun h => hdot h.1,
      ih fun d hd => hk d (List.mem_cons_of_mem c hd)]
    rfl

/-- One component of a dotted path. -/
lemma editMatchPath_dotted (hk : IsBareName k) (ks : List Bytes) (p : Bytes) :
    editMatchPath p (dotted (k :: ks)) = (editMatchComponent p k).bind fun p =>
      if ks = [] then some (editSkipWs p)
      else editMatchPath (if (editSkipWs p).head? = some Ch.dot
        then editSkipWs ((editSkipWs p).drop 1) else editSkipWs p) (dotted ks) := by
  have hws : editSkipWs (dotted (k :: ks)) = k ++ dotTail ks := by
    obtain ⟨c, k, rfl⟩ := List.exists_cons_of_ne_nil hk.1
    exact skipWs_cons _ (isBareKey_plain (hk.2 c (by simp))).2.2.2.2.2.2.2
  have htrim : editTrim k = k := by
    have h : editTrim (dotted [k]) = dotted [k] :=
      editTrim_dotted fun l hl => List.mem_singleton.mp hl ▸ hk
    rwa [dotted_cons, dotTail, List.append_nil] at h
  have hturn : editPathTurn (p, dotted (k :: ks)) =
      (editMatchComponent p k).elim (.error ()) fun p =>
        if dotTail ks = [] then .ok (.stop (editSkipWs p))
        else .ok (.next (if (editSkipWs p).head? = some Ch.dot
          then editSkipWs ((editSkipWs p).drop 1) else editSkipWs p, dotted ks)) := by
    simp only [editPathTurn, hws, editCut_dotted hk.2, htrim, if_neg hk.1]
    cases editMatchComponent p k <;> rfl
  have hnil : dotTail ks = [] ↔ ks = [] := by cases ks <;> simp [dotTail]
  rw [editMatchPath]
  cases hcomp : editMatchComponent p k with
  | none =>
    rw [hcomp] at hturn
    rw [loop_error hturn]
    rfl
  | some p' =>
    rw [hcomp] at hturn
    simp only [Option.elim_some, hnil] at hturn
    rw [Option.bind_some]
    split_ifs at hturn ⊢
    · rw [loop_stop hturn]
      rfl
    · rw [loop_next editPath_shrinks hturn, editMatchPath]
    · rw [loop_next editPath_shrinks hturn, editMatchPath]

/-- No key stands there. -/
lemma editMatchPath_none (hks : ∀ k ∈ ks, IsBareName k) (hne : ks ≠ [])
    (hr : ∀ c ∈ r.head?, isBareKey c = false ∧ c ≠ Ch.squote ∧ c ≠ Ch.dquote) :
    editMatchPath r (dotted ks) = none := by
  obtain ⟨k, ks, rfl⟩ := List.exists_cons_of_ne_nil hne
  rw [editMatchPath_dotted (hks k (by simp)), editMatchComponent_none (hks k (by simp)) hr]
  rfl

lemma skipWs_eqSign (hw : Toml.IsWs w) (r : Bytes) :
    editSkipWs (w ++ Ch.eq :: r) = Ch.eq :: r := by
  rw [editSkipWs_eq, skipWs_append hw, skipWs_cons _ (by decide)]

/-- Behind a key, white space and one more byte that ends it. -/
lemma endsKey_ws (hw : Toml.IsWs w) (hc : c = Ch.dot ∨ c = Ch.eq) (r : Bytes) :
    EndsKey (w ++ c :: r) := by
  intro d hd
  cases w with
  | nil =>
    obtain rfl := Option.some.inj hd
    exact hc.imp_right .inr
  | cons b w =>
    obtain rfl := Option.some.inj hd
    exact .inr (.inl (hw b (by simp)))

/-- What the editor takes for the target, in front of an equals sign, denotes the target, without
an escape. -/
lemma editMatchPath_sound (hks : ∀ k ∈ ks, IsBareName k) (hne : ks ≠ [])
    (ht : Toml.IsPath t names) (hw : Toml.IsWs w)
    (h : editMatchPath (t ++ (w ++ Ch.eq :: r)) (dotted ks) = some x)
    (hx : (editSkipWs x).head? = some Ch.eq) : names = ks ∧ Ch.bslash ∉ t := by
  induction ht generalizing ks with
  | @one t name hkey =>
    obtain ⟨k, ks, rfl⟩ := List.exists_cons_of_ne_nil hne
    rw [editMatchPath_dotted (hks k (by simp))] at h
    obtain ⟨p, hp, hrest⟩ := Option.bind_eq_some_iff.mp h
    obtain ⟨rfl, rfl, hplain⟩ := editMatchComponent_sound (hks k (by simp)) hkey
      (endsKey_ws hw (.inr rfl) r) hp
    rw [skipWs_eqSign hw] at hrest
    split_ifs at hrest with hks' hdot
    · exact ⟨by rw [hks'], hplain⟩
    · exact absurd (Option.some.inj hdot) (by decide)
    · rw [editMatchPath_none (fun l hl => hks l (List.mem_cons_of_mem _ hl)) hks'
        fun c hc => by obtain rfl := Option.some.inj hc; decide] at hrest
      cases hrest
  | @dotted t name w₁ w₂ u names hkey hw₁ hw₂ hu ih =>
    obtain ⟨k, ks, rfl⟩ := List.exists_cons_of_ne_nil hne
    rw [List.append_assoc, List.append_assoc, List.cons_append,
      editMatchPath_dotted (hks k (by simp))] at h
    obtain ⟨p, hp, hrest⟩ := Option.bind_eq_some_iff.mp h
    obtain ⟨rfl, rfl, hplain⟩ := editMatchComponent_sound (hks k (by simp)) hkey
      (endsKey_ws hw₁ (.inl rfl) _) hp
    have hskip : editSkipWs (w₁ ++ Ch.dot :: (w₂ ++ u ++ (w ++ Ch.eq :: r))) =
        Ch.dot :: (w₂ ++ u ++ (w ++ Ch.eq :: r)) := by
      rw [editSkipWs_eq, skipWs_append hw₁, skipWs_cons _ (by decide)]
    obtain ⟨c, u', hcons, hc, -⟩ := isPath_head hu
    have hnext : editSkipWs (w₂ ++ u ++ (w ++ Ch.eq :: r)) = u ++ (w ++ Ch.eq :: r) := by
      rw [editSkipWs_eq, List.append_assoc, skipWs_append hw₂, hcons, List.cons_append,
        skipWs_cons _ hc]
    rw [hskip] at hrest
    split_ifs at hrest with hks' hdot
    · obtain rfl := Option.some.inj hrest
      rw [editSkipWs_eq, skipWs_cons _ (by decide)] at hx
      exact absurd (Option.some.inj hx) (by decide)
    · rw [List.drop_succ_cons, List.drop_zero, hnext] at hrest
      obtain ⟨rfl, hplain'⟩ := ih (fun l hl => hks l (List.mem_cons_of_mem _ hl)) hks' hrest
      have hws : ∀ {w : Bytes}, Toml.IsWs w → Ch.bslash ∉ w := fun hw h =>
        absurd (hw _ h) (by decide)
      refine ⟨rfl, fun h => ?_⟩
      simp only [List.mem_append, List.mem_cons] at h
      rcases h with h | h | h | h | h
      · exact hplain h
      · exact hws hw₁ h
      · exact absurd h (by decide)
      · exact hws hw₂ h
      · exact hplain' h
    · exact absurd rfl hdot

/-- A key without an escape is taken for the target it denotes. -/
lemma editMatchPath_complete (hks : ∀ k ∈ names, IsBareName k) (ht : Toml.IsPath t names)
    (hplain : Ch.bslash ∉ t) (hw : Toml.IsWs w) (r : Bytes) :
    editMatchPath (t ++ (w ++ Ch.eq :: r)) (dotted names) = some (Ch.eq :: r) := by
  induction ht with
  | @one t name hkey =>
    rw [editMatchPath_dotted (hks name (by simp)), editMatchComponent_complete
      (hks name (by simp)) hkey hplain (endsKey_ws hw (.inr rfl) r), Option.bind_some, if_pos rfl,
      skipWs_eqSign hw]
  | @dotted t name w₁ w₂ u names hkey hw₁ hw₂ hu ih =>
    have hne : names ≠ [] := by cases hu <;> simp
    obtain ⟨c, u', hcons, hc, -⟩ := isPath_head hu
    have hnext : editSkipWs (w₂ ++ (u ++ (w ++ Ch.eq :: r))) = u ++ (w ++ Ch.eq :: r) := by
      rw [editSkipWs_eq, skipWs_append hw₂, hcons, List.cons_append, skipWs_cons _ hc]
    have htext : t ++ (w₁ ++ 0x2E :: (w₂ ++ u)) ++ (w ++ Ch.eq :: r) =
        t ++ (w₁ ++ Ch.dot :: (w₂ ++ (u ++ (w ++ Ch.eq :: r)))) := by simp [Ch.dot]
    have hskip : editSkipWs (w₁ ++ Ch.dot :: (w₂ ++ (u ++ (w ++ Ch.eq :: r)))) =
        Ch.dot :: (w₂ ++ (u ++ (w ++ Ch.eq :: r))) := by
      rw [editSkipWs_eq, skipWs_append hw₁, skipWs_cons _ (by decide)]
    rw [htext, editMatchPath_dotted (hks name (by simp)), editMatchComponent_complete
      (hks name (by simp)) hkey (fun h => hplain (by simp [h])) (endsKey_ws hw₁ (.inl rfl) _),
      Option.bind_some, if_neg hne, hskip, List.head?_cons, if_pos rfl, List.drop_succ_cons,
      List.drop_zero, hnext]
    exact ih (fun l hl => hks l (List.mem_cons_of_mem _ hl)) fun h => hplain (by simp [h])

end Paths

/-! ## The target under a section -/

/-- The text of the open section as the editor takes it, with the names of the open table: where
it is a path of bare names, it is that of the table. -/
def IsSection (sec : Bytes) (names : List Bytes) : Prop :=
  ∀ ks, (∀ k ∈ ks, IsBareName k) → sec = dotted ks → names = ks

section Target

variable {a b k sec rest t w r x : Bytes} {ks names open_ us vs : List Bytes}

lemma editLastDot_bare (hb : ∀ c ∈ b, isBareKey c = true) : editLastDot false b = none := by
  induction b with
  | nil => rfl
  | cons c b ih =>
    obtain ⟨hs, hd, hdot, -⟩ := isBareKey_plain (hb c (by simp))
    simp [editLastDot, hs, hd, hdot, ih fun d hd => hb d (List.mem_cons_of_mem c hd)]

lemma editLastDot_dotted (ha : ∀ c ∈ a, isBareKey c = true ∨ c = Ch.dot)
    (hb : ∀ c ∈ b, isBareKey c = true) : editLastDot false (a ++ Ch.dot :: b) = some (a, b) := by
  induction a with
  | nil =>
    rw [List.nil_append, editLastDot, if_neg (by decide), editLastDot_bare hb]
    rfl
  | cons c a ih =>
    have hquote : ¬ (c = Ch.squote ∨ c = Ch.dquote) := by
      rcases ha c (by simp) with hc | rfl
      · exact not_or.mpr ⟨(isBareKey_plain hc).1, (isBareKey_plain hc).2.1⟩
      · decide
    rw [List.cons_append, editLastDot, if_neg hquote,
      ih fun d hd => ha d (List.mem_cons_of_mem c hd)]

/-- The target is split in front of its last name. -/
lemma editSplitTarget_dotted (hks : ∀ l ∈ ks, IsBareName l) (hk : IsBareName k) :
    editSplitTarget (dotted (ks ++ [k])) = (dotted ks, k) := by
  by_cases hne : ks = []
  · subst hne
    rw [List.nil_append, dotted_cons, dotTail, List.append_nil, editSplitTarget,
      editLastDot_bare hk.2]
    rfl
  · rw [dotted_append hne, dotTail, dotTail, List.append_nil, editSplitTarget,
      editLastDot_dotted (dotted_bytes hks) hk.2]
    rfl

/-- What of the target follows the open section is the rest of its names. -/
lemma editStripSectionPrefix_iff (hks : ∀ l ∈ ks, IsBareName l) :
    editStripSectionPrefix (dotted ks) sec = some rest ↔
      ∃ us vs, ks = us ++ vs ∧ us ≠ [] ∧ vs ≠ [] ∧ sec = dotted us ∧ rest = dotted vs := by
  rw [editStripSectionPrefix, editTrim_dotted hks]
  constructor
  · intro h
    split_ifs at h with hlen hpre
    dsimp only at h
    split_ifs at h with hnil
    obtain rfl := Option.some.inj h
    obtain ⟨hdot, y, hy⟩ := hpre
    rw [← hy, List.getElem?_append_right le_rfl, Nat.sub_self] at hdot
    obtain ⟨y, rfl⟩ := List.head?_eq_some_iff.mp (List.head?_eq_getElem?.trans hdot)
    have hrest : (dotted ks).drop (sec.length + 1) = y := by
      rw [← hy, ← List.drop_drop, List.drop_left]
      rfl
    rw [hrest]
    exact dotted_split hks hy.symm
  · rintro ⟨us, vs, rfl, hus, hvs, rfl, rfl⟩
    have hus' : dotted us ≠ [] := dotted_ne_nil (fun l hl => hks l (by simp [hl])) hus
    have hvs' : dotted vs ≠ [] := dotted_ne_nil (fun l hl => hks l (by simp [hl])) hvs
    have htext : dotted (us ++ vs) = dotted us ++ Ch.dot :: dotted vs := by
      rw [dotted_append hus, dotTail_eq hvs]
    have hdrop : (dotted us ++ Ch.dot :: dotted vs).drop ((dotted us).length + 1) = dotted vs := by
      rw [← List.drop_drop, List.drop_left]
      rfl
    have hlen : ¬ (dotted us = [] ∨
        (dotted us ++ Ch.dot :: dotted vs).length ≤ (dotted us).length) := by
      simp [hus']
    simp only [htext, hdrop]
    rw [if_neg hlen, if_pos ⟨by simp, List.prefix_append _ _⟩, if_neg hvs']

/-- The line of a key, by the parts of the target. -/
lemma editMatchLine_dotted (hks : ∀ l ∈ ks, IsBareName l) (hk : IsBareName k) :
    editMatchLine (dotted (ks ++ [k])) sec t =
      ((if sec = [] then editMatchPath t (dotted (ks ++ [k])) else none)
      <|> (if sec = dotted ks then editMatchPath t (dotted [k]) else none)
      <|> (editStripSectionPrefix (dotted (ks ++ [k])) sec).bind (editMatchPath t)) := by
  have hmatches : (k ≠ [] ∧ editSectionMatches (dotted ks) sec = true) ↔ sec = dotted ks := by
    simp [editSectionMatches, editTrim_dotted hks, hk.1]
  have hlast : dotted [k] = k := by rw [dotted_cons, dotTail, List.append_nil]
  rw [editMatchLine, editSplitTarget_dotted hks hk]
  simp only [hmatches, hlast]
  cases editStripSectionPrefix (dotted (ks ++ [k])) sec <;> rfl

/-- The key on a line that the editor takes for the target is the target under the open table; the
section is written bare, and the key without an escape. -/
lemma editMatchLine_sound (hks : ∀ l ∈ ks, IsBareName l) (hne : ks ≠ [])
    (hsec : IsSection sec open_) (ht : Toml.IsPath t names) (hw : Toml.IsWs w)
    (h : editMatchLine (dotted ks) sec (t ++ (w ++ Ch.eq :: r)) = some x)
    (hx : (editSkipWs x).head? = some Ch.eq) :
    open_ ++ names = ks ∧ sec = dotted open_ ∧ Ch.bslash ∉ t := by
  obtain ⟨init, k, rfl⟩ : ∃ init k, ks = init ++ [k] :=
    ⟨_, _, (List.dropLast_append_getLast hne).symm⟩
  have hinit : ∀ l ∈ init, IsBareName l := fun l hl => hks l (by simp [hl])
  have hk : IsBareName k := hks k (by simp)
  have hunder : ∀ {us vs : List Bytes}, init ++ [k] = us ++ vs → vs ≠ [] → sec = dotted us →
      editMatchPath (t ++ (w ++ Ch.eq :: r)) (dotted vs) = some x →
      open_ ++ names = init ++ [k] ∧ sec = dotted open_ ∧ Ch.bslash ∉ t := by
    intro us vs hsplit hvs hus hmatch
    have hopen : open_ = us :=
      hsec us (fun l hl => hks l (hsplit ▸ List.mem_append_left vs hl)) hus
    obtain ⟨rfl, hplain⟩ := editMatchPath_sound
      (fun l hl => hks l (hsplit ▸ List.mem_append_right us hl)) hvs ht hw hmatch hx
    exact ⟨by rw [hopen, hsplit], by rw [hopen, hus], hplain⟩
  rw [editMatchLine_dotted hinit hk, Option.orElse_eq_orElse, Option.orElse_eq_or,
    Option.or_eq_some_iff] at h
  rcases h with h | ⟨-, h⟩
  · split_ifs at h with hnil
    exact hunder (List.nil_append _).symm hne hnil h
  rw [Option.orElse_eq_or, Option.or_eq_some_iff] at h
  rcases h with h | ⟨-, h⟩
  · split_ifs at h with hmatches
    exact hunder rfl (by simp) hmatches h
  · obtain ⟨rest, hstrip, h⟩ := Option.bind_eq_some_iff.mp h
    obtain ⟨us, vs, hsplit, -, hvs, hus, rfl⟩ := (editStripSectionPrefix_iff hks).mp hstrip
    exact hunder hsplit hvs hus h

/-- A key without an escape is taken for the target under a section that is written bare. -/
lemma editMatchLine_complete (hopen : ∀ l ∈ open_, IsBareName l)
    (hnames : ∀ l ∈ names, IsBareName l) (ht : Toml.IsPath t names) (hplain : Ch.bslash ∉ t)
    (hw : Toml.IsWs w) (r : Bytes) :
    editMatchLine (dotted (open_ ++ names)) (dotted open_) (t ++ (w ++ Ch.eq :: r)) =
      some (Ch.eq :: r) := by
  have hmatch := editMatchPath_complete hnames ht hplain hw r
  have hne : names ≠ [] := by cases ht <;> simp
  have hks : ∀ l ∈ open_ ++ names, IsBareName l := fun l hl =>
    (List.mem_append.mp hl).elim (hopen l) (hnames l)
  by_cases hroot : open_ = []
  · subst hroot
    rw [List.nil_append]
    obtain ⟨init, k, rfl⟩ : ∃ init k, names = init ++ [k] :=
      ⟨_, _, (List.dropLast_append_getLast hne).symm⟩
    rw [editMatchLine_dotted (fun l hl => hnames l (by simp [hl])) (hnames k (by simp)),
      if_pos (show dotted [] = [] from rfl), hmatch]
    rfl
  obtain ⟨init, k, rfl⟩ : ∃ init k, names = init ++ [k] :=
    ⟨_, _, (List.dropLast_append_getLast hne).symm⟩
  have hstrip : editStripSectionPrefix (dotted (open_ ++ (init ++ [k]))) (dotted open_) =
      some (dotted (init ++ [k])) :=
    (editStripSectionPrefix_iff hks).mpr ⟨open_, _, rfl, hroot, by simp, rfl, rfl⟩
  have hinit : ∀ l ∈ open_ ++ init, IsBareName l := fun l hl => hks l (by simp at hl ⊢; tauto)
  rw [← List.append_assoc] at hstrip ⊢
  rw [editMatchLine_dotted hinit (hnames k (by simp)), if_neg (dotted_ne_nil hopen hroot), hstrip,
    Option.bind_some, hmatch]
  by_cases hlast : dotted open_ = dotted (open_ ++ init)
  · -- nothing of the target but its last name follows the section
    have hnil : init = [] := by
      have hlen := congrArg List.length (dotted_inj hopen hinit hlast)
      rw [List.length_append] at hlen
      exact List.eq_nil_of_length_eq_zero (by omega)
    subst hnil
    rw [if_pos hlast, ← List.nil_append [k], hmatch]
    rfl
  · rw [if_neg hlast]
    rfl

/-- No key is on the line. -/
lemma editMatchLine_none (hks : ∀ l ∈ ks, IsBareName l) (hne : ks ≠ [])
    (hr : ∀ c ∈ r.head?, isBareKey c = false ∧ c ≠ Ch.squote ∧ c ≠ Ch.dquote) :
    editMatchLine (dotted ks) sec r = none := by
  obtain ⟨init, k, rfl⟩ : ∃ init k, ks = init ++ [k] :=
    ⟨_, _, (List.dropLast_append_getLast hne).symm⟩
  have hstrip : (editStripSectionPrefix (dotted (init ++ [k])) sec).bind (editMatchPath r) =
      none := by
    refine Option.bind_eq_none_iff.mpr fun rest hrest => ?_
    obtain ⟨us, vs, hsplit, -, hvs, -, rfl⟩ := (editStripSectionPrefix_iff hks).mp hrest
    exact editMatchPath_none (fun l hl => hks l (hsplit ▸ List.mem_append_right us hl)) hvs hr
  rw [editMatchLine_dotted (fun l hl => hks l (by simp [hl])) (hks k (by simp)), hstrip,
    editMatchPath_none hks hne hr, editMatchPath_none (fun l hl => List.mem_singleton.mp hl ▸
      hks k (by simp)) (by simp) hr, ite_self, ite_self]
  rfl

/-- The editor takes the key on a line for the target exactly when the key, under the open table,
is the target, the section is written bare and no escape is in the key. -/
theorem editMatchLine_iff (hks : ∀ l ∈ ks, IsBareName l) (hne : ks ≠ [])
    (hsec : IsSection sec open_) (ht : Toml.IsPath t names) (hw : Toml.IsWs w) (r : Bytes) :
    (∃ x, editMatchLine (dotted ks) sec (t ++ (w ++ Ch.eq :: r)) = some x ∧
        (editSkipWs x).head? = some Ch.eq) ↔
      open_ ++ names = ks ∧ sec = dotted open_ ∧ Ch.bslash ∉ t := by
  constructor
  · rintro ⟨x, hmatch, hx⟩
    exact editMatchLine_sound hks hne hsec ht hw hmatch hx
  · rintro ⟨rfl, rfl, hplain⟩
    refine ⟨Ch.eq :: r, ?_, rfl⟩
    exact editMatchLine_complete (fun l hl => hks l (List.mem_append_left names hl))
      (fun l hl => hks l (List.mem_append_right open_ hl)) ht hplain hw r

/-- The target `a.b` on the line `b = 1` of the section `a`. -/
theorem editMatchLine_iff_member :
    ∃ x, editMatchLine (ascii "a.b") (ascii "a") (ascii "b = 1") = some x ∧
      (editSkipWs x).head? = some Ch.eq := by
  have hname : ∀ c, isBareKey c = true → IsBareName [c] := fun c hc =>
    ⟨by simp, fun _ h => List.mem_singleton.mp h ▸ hc⟩
  have hopen : ∀ l ∈ [ascii "a"], IsBareName l := fun l hl =>
    List.mem_singleton.mp hl ▸ hname 0x61 (by decide)
  have hks : ∀ l ∈ [ascii "a", ascii "b"], IsBareName l := fun l hl =>
    (List.mem_cons.mp hl).elim (fun h => h ▸ hname 0x61 (by decide)) fun h =>
      List.mem_singleton.mp h ▸ hname 0x62 (by decide)
  have hpath : Toml.IsPath (ascii "b") [ascii "b"] :=
    .one (.bare (fun _ h => List.mem_singleton.mp h ▸ rfl) (by decide))
  have hsection : IsSection (ascii "a") [ascii "a"] := fun _ hks hsec =>
    dotted_inj hopen hks hsec
  have hsp : Toml.IsWs [Ch.sp] := fun _ h => List.mem_singleton.mp h ▸ rfl
  exact (editMatchLine_iff hks (by simp) hsection hpath hsp (ascii " 1")).mpr
    ⟨rfl, rfl, by decide⟩

end Target

end Teptris
