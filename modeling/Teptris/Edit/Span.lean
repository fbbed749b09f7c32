import Teptris.Edit.Editor
import Teptris.Grammar.Document
import Teptris.Library.Runs
import Teptris.Library.TomlLines

/-!
# The editor's value spans

`edit_value_span` finds the end of a value without reading it: behind a string, behind the bracket
that balances the first one, or in front of the end of the line.  For the values of the grammar
without comments inside, that is where the value ends.
-/

namespace Teptris

open Loop

/-! ## Strings -/

section Strings

variable {q c : UInt8} {basic ml : Bool} {t s e x r : Bytes}

lemma editScan_append (ht : ∀ c ∈ t, Passed q c) (r : Bytes) :
    editScan q ml 0 (t ++ r) = editScan q ml 0 r := by
  induction t with
  | nil => rfl
  | cons c t ih =>
    rw [List.cons_append, editScan_passed (ht c (by simp))]
    exact ih fun d hd => ht d (List.mem_cons_of_mem c hd)

lemma quote_cases (basic : Bool) :
    Toml.quote basic = Ch.dquote ∨ Toml.quote basic = Ch.squote := by
  cases basic
  · exact .inr rfl
  · exact .inl rfl

/-- What stands for itself is stepped over. -/
lemma passed_of_ordinary (hc : Toml.isOrdinary basic c = true) :
    Passed (Toml.quote basic) c := by
  simp only [Toml.isOrdinary, Bool.and_eq_true, bne_iff_ne, Bool.not_eq_true',
    Bool.and_eq_false_iff] at hc
  refine ⟨hc.1.2, fun h => ?_⟩
  cases basic
  · exact absurd h.1 (by decide)
  · rcases hc.2 with hb | hb
    · cases hb
    · exact absurd h.2 (beq_eq_false_iff_ne.mp hb)

/-- The white space of a folded line end. -/
lemma passed_of_blank (ht : Toml.IsBlank t) : ∀ c ∈ t, Passed (Toml.quote basic) c := by
  induction ht with
  | nil => exact fun _ h => absurd h List.not_mem_nil
  | ws hc _ ih =>
    intro d hd
    rcases List.mem_cons.mp hd with rfl | hd
    · exact passed_of_space (quote_cases basic) (.inl hc)
    · exact ih d hd
  | newline hn _ ih =>
    intro d hd
    rcases List.mem_append.mp hd with hd | hd
    · refine passed_of_space (quote_cases basic) (.inr ?_)
      cases hn with
      | lf => exact .inl (List.mem_singleton.mp hd)
      | crlf => simpa [or_comm] using hd
    · exact ih d hd

/-- An escape is stepped over. -/
lemma editScan_escape (he : Toml.IsEscape e x) (r : Bytes) :
    editScan Ch.dquote ml 0 (Ch.bslash :: (e ++ r)) = editScan Ch.dquote ml 0 r := by
  have hdigits : ∀ {n cp : ℕ} {c : UInt8} {t : Bytes}, Toml.IsHex n t cp →
      editScan Ch.dquote ml 1 (c :: t ++ r) = editScan Ch.dquote ml 0 r := fun h =>
    editScan_append (fun c hc => passed_of_isHex (h.digits c hc)) r
  have hne : e ++ r ≠ [] := by cases he <;> simp
  rw [editScan, if_pos ⟨rfl, rfl⟩, if_neg hne]
  cases he with
  | short => rfl
  | two h => exact hdigits h
  | four h => exact hdigits h
  | eight h => exact hdigits h

lemma editScan_chars (h : Toml.IsChars basic t s) (r : Bytes) :
    editScan (Toml.quote basic) ml 0 (t ++ r) = editScan (Toml.quote basic) ml 0 r := by
  induction h with
  | nil => rfl
  | char hc _ ih => rw [List.cons_append, editScan_passed (passed_of_ordinary hc), ih]
  | escape hb he _ ih =>
    subst hb
    rw [List.cons_append, List.append_assoc]
    exact (editScan_escape he _).trans ih

/-- A run of quotes closes a multi-line string, or belongs to it. -/
lemma editScan_run {n : ℕ} (hn : 0 < n) (hr : r.head? ≠ some (Toml.quote basic)) :
    editScan (Toml.quote basic) true 0 (List.replicate n (Toml.quote basic) ++ r) =
      if 3 ≤ n then some r else editScan (Toml.quote basic) true 0 r := by
  obtain ⟨n, rfl⟩ := Nat.exists_eq_succ_of_ne_zero hn.ne'
  have hbslash : ¬ (Toml.quote basic = Ch.dquote ∧ Toml.quote basic = Ch.bslash) := by
    cases basic <;> decide
  have hrun : (List.replicate (n + 1) (Toml.quote basic) ++ r).takeWhile (· = Toml.quote basic) =
      List.replicate (n + 1) (Toml.quote basic) := by
    rw [List.takeWhile_append_of_pos (by simp)]
    cases r with
    | nil => simp
    | cons c r =>
      have hc : c ≠ Toml.quote basic := fun h => hr (congrArg some h)
      simp [hc]
  rw [List.replicate_succ, List.cons_append] at hrun ⊢
  rw [editScan, if_neg hbslash, if_pos rfl]
  simp only [hrun, List.length_cons, List.length_replicate, List.drop_succ_cons]
  by_cases h3 : 3 ≤ n + 1
  · rw [if_pos h3, if_neg (by simp), if_pos h3]
    simp
  · rw [if_neg h3, if_neg (by simp), if_neg h3, editScan_skip]
    simp

lemma editScan_mlBody (h : Toml.IsMlBody basic t s) (hr : r.head? ≠ some (Toml.quote basic)) :
    editScan (Toml.quote basic) true 0 (t ++ r) = some r := by
  have hnewline : ∀ {n : Bytes}, Toml.IsNewline n → ∀ c ∈ n, Passed (Toml.quote basic) c := by
    intro n hn
    have hblank : ∀ c ∈ n ++ [], Passed (Toml.quote basic) c := passed_of_blank (.newline hn .nil)
    rwa [List.append_nil] at hblank
  induction h with
  | close hn => rw [editScan_run (by omega) hr, if_pos (by omega)]
  | @quotes n t s hn ht h ih =>
    have hfirst : (t ++ r).head? ≠ some (Toml.quote basic) := by
      rcases h.front with ⟨_, _, hn, rfl⟩ | ⟨c, t, rfl, -⟩
      · cases hn <;> exact ht
      · exact ht
    rw [List.append_assoc, editScan_run (by omega) hfirst, if_neg (by omega), ih]
  | char hc _ ih => rw [List.cons_append, editScan_passed (passed_of_ordinary hc), ih]
  | newline hn _ ih => rw [List.append_assoc, editScan_append (hnewline hn), ih]
  | escape hb he _ ih =>
    subst hb
    rw [List.cons_append, List.append_assoc]
    exact (editScan_escape he _).trans ih
  | @fold w n g t s hb hw hn hg _ _ ih =>
    subst hb
    have hspace : ∀ c ∈ w ++ n, Passed (Toml.quote true) c := fun c hc =>
      (List.mem_append.mp hc).elim
        (fun h => passed_of_space (.inl rfl) (.inl (hw c h))) (hnewline hn c)
    have hne : w ++ n ≠ [] := by cases hn <;> simp
    have hpass : ∀ {u : Bytes}, u ≠ [] → (∀ c ∈ u, Passed (Toml.quote true) c) → ∀ y,
        editScan (Toml.quote true) true 0 (Ch.bslash :: (u ++ y)) =
          editScan (Toml.quote true) true 0 y := by
      intro u hu hp y
      obtain ⟨d, u, rfl⟩ := List.exists_cons_of_ne_nil hu
      rw [editScan, if_pos ⟨rfl, rfl⟩, if_neg (by simp), editScan_skip]
      exact editScan_append (fun c hc => hp c (List.mem_cons_of_mem d hc)) y
    have htext : 0x5C :: (w ++ (n ++ (g ++ t))) ++ r =
        Ch.bslash :: ((w ++ n) ++ (g ++ (t ++ r))) := by
      simp [Ch.bslash]
    rw [htext, hpass hne hspace, editScan_append (passed_of_blank hg), ih]

/-- A string of the grammar is stepped over as a whole. -/
lemma editSkipString_complete (h : Toml.IsString t s)
    (hr : ∀ basic, r.head? ≠ some (Toml.quote basic)) : editSkipString (t ++ r) = some r := by
  have hmulti : ∀ {basic : Bool} {u : Bytes},
      editSkipString (List.replicate 3 (Toml.quote basic) ++ u) =
        editScan (Toml.quote basic) true 0 u := by
    intro basic u
    simp [editSkipString, List.replicate]
  rcases h with h | h
  · obtain @⟨basic, t, s, h⟩ := h
    have hclose : ¬ (Toml.quote basic = Ch.dquote ∧ Toml.quote basic = Ch.bslash) := by
      cases basic <;> decide
    have hone : ¬ ((t ++ [Toml.quote basic] ++ r)[0]? = some (Toml.quote basic) ∧
        (t ++ [Toml.quote basic] ++ r)[1]? = some (Toml.quote basic)) := by
      rintro ⟨h0, h1⟩
      cases h with
      | nil =>
        refine hr basic ?_
        rw [List.head?_eq_getElem?]
        simpa using h1
      | char hc => exact (passed_of_ordinary hc).1 (Option.some.inj h0)
      | escape hb =>
        subst hb
        exact absurd (Option.some.inj h0) (by decide)
    have hml : ((t ++ [Toml.quote basic] ++ r)[0]? = some (Toml.quote basic) &&
        (t ++ [Toml.quote basic] ++ r)[1]? = some (Toml.quote basic) : Bool) = false := by
      simpa using hone
    rw [List.cons_append, editSkipString, hml, List.append_assoc, if_neg (by simp),
      editScan_chars h, List.singleton_append, editScan, if_neg hclose, if_pos rfl]
    rfl
  · cases h with
    | @newline basic n t s hn h =>
      have hnewline : ∀ c ∈ n, Passed (Toml.quote basic) c := by
        have hblank : ∀ c ∈ n ++ [], Passed (Toml.quote basic) c :=
          passed_of_blank (.newline hn .nil)
        rwa [List.append_nil] at hblank
      rw [List.append_assoc, hmulti, List.append_assoc, editScan_append hnewline,
        editScan_mlBody h (hr basic)]
    | @plain basic t s _ h => rw [List.append_assoc, hmulti, editScan_mlBody h (hr basic)]

end Strings

/-! ## Brackets -/

section Brackets

variable {c q : UInt8} {ml : Bool} {t u r r' : Bytes} {depth : ℤ}

lemma editScan_length {skip : ℕ} (h : editScan q ml skip r = some r') : r'.length ≤ r.length := by
  fun_induction editScan q ml skip r with
  | case1 => cases h
  | case2 c r skip ih => exact (ih h).trans (Nat.le_succ _)
  | case3 => cases h
  | case4 c r _ _ ih => exact (ih h).trans (Nat.le_succ _)
  | case5 => exact (Option.some.inj h) ▸ Nat.le_succ _
  | case6 =>
    rw [← Option.some.inj h, List.length_drop]
    exact Nat.sub_le _ _
  | case7 c r _ _ _ ih => exact (ih h).trans (Nat.le_succ _)
  | case8 c r _ _ ih => exact (ih h).trans (Nat.le_succ _)

lemma editBracket_shrinks : Shrinks editBracketTurn (fun s => s.2.length) := by
  rintro ⟨depth, _ | ⟨c, cs⟩⟩ s' h
  · cases h
  simp only [editBracketTurn] at h
  split_ifs at h
  · split at h
    · cases h
    next r hr =>
    obtain rfl := Turn.next.inj (Except.ok.inj h)
    have hlen : r.length ≤ cs.length := by
      rw [editSkipString] at hr
      refine (editScan_length hr).trans ?_
      split_ifs
      · rw [List.length_drop]
        exact Nat.sub_le _ _
      · exact le_rfl
    exact Nat.lt_succ_of_le hlen
  all_goals
    first
    | cases h; done
    | obtain rfl := Turn.next.inj (Except.ok.inj h)
      exact Nat.lt_succ_self _

/-- No quote and no bracket. -/
def IsInert (c : UInt8) : Prop :=
  c ≠ Ch.squote ∧ c ≠ Ch.dquote ∧ c ≠ Ch.lbrace ∧ c ≠ Ch.lbrack ∧ c ≠ Ch.rbrace ∧ c ≠ Ch.rbrack
deriving Decidable

lemma editBrackets_inert (ht : ∀ c ∈ t, IsInert c) (r : Bytes) :
    editBrackets depth (t ++ r) = editBrackets depth r := by
  induction t with
  | nil => rfl
  | cons c t ih =>
    obtain ⟨hs, hd, hl, hk, hr, hb⟩ := ht c (by simp)
    rw [← ih fun d hd => ht d (List.mem_cons_of_mem c hd)]
    refine loop_next editBracket_shrinks ?_
    rw [List.cons_append, editBracketTurn]
    simp [hs, hd, hl, hk, hr, hb]

/-- An opening bracket. -/
lemma editBrackets_open (hc : c = Ch.lbrace ∨ c = Ch.lbrack) (r : Bytes) :
    editBrackets depth (c :: r) = editBrackets (depth + 1) r := by
  refine loop_next editBracket_shrinks ?_
  rcases hc with rfl | rfl <;> rfl

/-- A closing bracket. -/
lemma editBrackets_close (hc : IsClosing c) (r : Bytes) :
    editBrackets depth (c :: r) = if depth - 1 = 0 then .ok r else editBrackets (depth - 1) r := by
  have hturn : editBracketTurn (depth, c :: r) =
      if depth - 1 = 0 then .ok (.stop r) else .ok (.next (depth - 1, r)) := by
    rcases hc with rfl | rfl <;> rfl
  split_ifs at hturn ⊢ with h
  · exact loop_stop hturn
  · exact loop_next editBracket_shrinks hturn

lemma editBrackets_string {s : Bytes} (h : Toml.IsString t s)
    (hr : ∀ basic, r.head? ≠ some (Toml.quote basic)) :
    editBrackets depth (t ++ r) = editBrackets depth r := by
  have hskip := editSkipString_complete h hr
  obtain ⟨basic, u, rfl⟩ := isString_head h
  refine loop_next editBracket_shrinks ?_
  have hquote : Toml.quote basic = Ch.squote ∨ Toml.quote basic = Ch.dquote :=
    (quote_cases basic).symm
  rw [List.cons_append] at hskip ⊢
  simp only [editBracketTurn, if_pos hquote, hskip]

/-- No comment has room in it. -/
def Calm (t : Bytes) : Prop := Ch.lf ∉ t ∨ Ch.hash ∉ t

lemma Calm.sub (ht : Calm t) (h : ∀ c ∈ u, c ∈ t) : Calm u :=
  ht.imp (fun hlf hu => hlf (h _ hu)) (fun hhash hu => hhash (h _ hu))

lemma isWs_inert (hc : isWs c = true) : IsInert c := by
  rcases isWs_cases hc with rfl | rfl <;> decide

lemma isTokenByte_inert (hc : isTokenByte c = true) : IsInert c := by
  refine ⟨?_, ?_, ?_, ?_, ?_, ?_⟩ <;> exact ne_of_isTokenByte hc (by decide)

lemma one_inert (hc : IsInert c) : ∀ d ∈ [c], IsInert d := fun _ hd =>
  List.mem_singleton.mp hd ▸ hc

lemma isGap_inert (hg : Toml.IsGap t) (ht : Calm t) : ∀ c ∈ t, IsInert c := by
  induction hg with
  | nil => exact fun _ h => absurd h List.not_mem_nil
  | @ws c t hc _ ih =>
    intro d hd
    rcases List.mem_cons.mp hd with rfl | hd
    · exact isWs_inert hc
    · exact ih (ht.sub fun _ => List.mem_cons_of_mem c) d hd
  | @newline n t hn _ ih =>
    intro d hd
    rcases List.mem_append.mp hd with hd | hd
    · cases hn with
      | lf => exact one_inert (by decide) d hd
      | crlf =>
        rcases List.mem_cons.mp hd with rfl | hd
        · decide
        · exact one_inert (by decide) d hd
    · exact ih (ht.sub fun _ => List.mem_append_right n) d hd
  | comment hc hn =>
    obtain ⟨-⟩ := hc
    rcases ht with ht | ht
    · exact absurd (by cases hn <;> simp) ht
    · exact absurd (by simp) ht

end Brackets

/-! ## Values -/

section Values

variable {cfg : Config} {α : Type} {member : α → Bytes → α → Prop} {close : UInt8} {a b : α}
  {t u w r q : Bytes} {v : Node} {ks : List Bytes} {depth : ℤ} {levels : ℕ}

/-- The bracket scan comes by, inside a bracket and in front of anything but a quote. -/
def Stepped (t : Bytes) : Prop :=
  ∀ (depth : ℤ) (r : Bytes), 1 ≤ depth → (∀ basic, r.head? ≠ some (Toml.quote basic)) →
    editBrackets depth (t ++ r) = editBrackets depth r

lemma head_ne_quote (hr : ∃ c ∈ r.head?, IsInert c) (basic : Bool) :
    r.head? ≠ some (Toml.quote basic) := by
  obtain ⟨c, hc, hs, hd, -⟩ := hr
  rw [Option.mem_def.mp hc]
  intro h
  rcases quote_cases basic with hq | hq
  · exact hd (hq ▸ Option.some.inj h)
  · exact hs (hq ▸ Option.some.inj h)

/-- What follows a text of inert bytes, and that text, in front. -/
lemma inert_append (ht : ∀ c ∈ t, IsInert c) {c : UInt8} (hc : IsInert c) :
    ∃ d ∈ (t ++ c :: r).head?, IsInert d := by
  cases t with
  | nil => exact ⟨c, rfl, hc⟩
  | cons d t => exact ⟨d, rfl, ht d (by simp)⟩

lemma ws_inert (hw : Toml.IsWs w) : ∀ c ∈ w, IsInert c := fun c hc => isWs_inert (hw c hc)

lemma editBrackets_path (hk : Toml.IsPath t ks)
    (hr : ∀ basic, r.head? ≠ some (Toml.quote basic)) :
    editBrackets depth (t ++ r) = editBrackets depth r := by
  have hkey : ∀ {t k r : Bytes}, Toml.IsKey t k →
      (∀ basic, r.head? ≠ some (Toml.quote basic)) →
      editBrackets depth (t ++ r) = editBrackets depth r := by
    intro t k r hk hr
    cases hk with
    | bare ht =>
      refine editBrackets_inert (fun c hc => isTokenByte_inert ?_) r
      have hbare : isBareKey c = true := ht c hc
      simp [isTokenByte, hbare]
    | quoted h => exact editBrackets_string (.inl h) hr
  have hdot : IsInert Ch.dot := by decide
  induction hk with
  | one h => exact hkey h hr
  | @dotted t k w w' u ks h hw hw' _ ih =>
    have hfirst : ∃ c ∈ (w ++ Ch.dot :: (w' ++ (u ++ r))).head?, IsInert c :=
      inert_append (ws_inert hw) hdot
    have hone : ∀ c ∈ [Ch.dot], IsInert c := one_inert hdot
    calc editBrackets depth (t ++ (w ++ Ch.dot :: (w' ++ u)) ++ r)
        = editBrackets depth (t ++ (w ++ Ch.dot :: (w' ++ (u ++ r)))) := by simp
      _ = editBrackets depth ([Ch.dot] ++ (w' ++ (u ++ r))) := by
        rw [hkey h (head_ne_quote hfirst), editBrackets_inert (ws_inert hw)]
        rfl
      _ = editBrackets depth r := by
        rw [editBrackets_inert hone, editBrackets_inert (ws_inert hw'), ih]

/-- A member list is stepped over up to its closing bracket. -/
lemma editBrackets_members (hclose : IsClosing close)
    (hmember : ∀ a t b, member a t b → Calm t → Stepped t)
    (ht : Toml.IsMembers member close a t b) (hcalm : Calm t) (hdepth : 1 ≤ depth) (r : Bytes) :
    editBrackets depth (t ++ r) =
      if depth - 1 = 0 then .ok r else editBrackets (depth - 1) r := by
  have hcomma : IsInert Ch.comma := by decide
  have hquote : ∀ {r : Bytes} (basic : Bool), (close :: r).head? ≠ some (Toml.quote basic) := by
    intro r basic
    have hne : close ≠ Toml.quote basic := by
      rcases hclose with rfl | rfl <;> cases basic <;> decide
    exact fun h => hne (Option.some.inj h)
  -- a member between its gaps
  have hone : ∀ {a b : α} {g t g' : Bytes} {c : UInt8} (q : Bytes), Toml.IsGap g →
      member a t b → Toml.IsGap g' → Calm (g ++ (t ++ g')) →
      (∀ basic, (c :: q).head? ≠ some (Toml.quote basic)) →
      editBrackets depth (g ++ (t ++ (g' ++ c :: q))) = editBrackets depth (c :: q) := by
    intro a b g t g' c q hg h hg' hcalm hc
    have hgap := isGap_inert hg (hcalm.sub fun _ => List.mem_append_left _)
    have hgap' := isGap_inert hg' (hcalm.sub fun d hd => by simp [hd])
    have hfirst : ∀ basic, (g' ++ c :: q).head? ≠ some (Toml.quote basic) := by
      cases g' with
      | nil => exact hc
      | cons d g' => exact head_ne_quote ⟨d, rfl, hgap' d (by simp)⟩
    rw [editBrackets_inert hgap,
      hmember a t b h (hcalm.sub fun d hd => by simp [hd]) depth _ hdepth hfirst,
      editBrackets_inert hgap']
  induction ht with
  | close hg =>
    rw [List.append_assoc, editBrackets_inert
      (isGap_inert hg (hcalm.sub fun _ => List.mem_append_left _))]
    exact editBrackets_close hclose r
  | @last a b g t g' hg h hg' =>
    have := hone r hg h hg' (hcalm.sub fun c hc => by simp at hc ⊢; tauto) hquote
    simp only [List.append_assoc, List.singleton_append]
    rw [this, editBrackets_close hclose]
  | @more a b c g t g' u hg h hg' _ ih =>
    have := hone (c := Ch.comma) (u ++ r) hg h hg'
      (hcalm.sub fun c hc => by simp at hc ⊢; tauto) (head_ne_quote ⟨_, rfl, hcomma⟩)
    have hlist : ∀ c ∈ [Ch.comma], IsInert c := one_inert (by decide)
    simp only [List.append_assoc, List.cons_append]
    rw [this, ← ih (hcalm.sub fun c hc => by simp [hc])]
    exact editBrackets_inert hlist (u ++ r)

/-- A token has inert bytes only. -/
lemma isToken_inert (h : IsToken cfg.fc w v) : ∀ c ∈ w, IsInert c := by
  have hbyte : ∀ c, isTokenByte c = true → IsInert c := fun _ => isTokenByte_inert
  obtain ⟨a, u, rfl, hu, ha⟩ := isToken_bytes h
  intro c hc
  rcases List.mem_append.mp hc with hc | hc
  · rcases ha c hc with hc | rfl
    · exact hbyte c hc
    · decide
  · exact hbyte c (hu.2 c hc)

lemma IsFlat.stepped (h : IsFlat cfg.fc w v) : Stepped w := by
  intro depth r _ hr
  cases h with
  | token h => exact editBrackets_inert (isToken_inert h) r
  | string h => exact editBrackets_string h hr

/-- A pair inside a bracket is stepped over. -/
lemma IsPair.stepped {value : Bytes → Node → Prop} {es es' : Entries}
    (hvalue : ∀ w v, value w v → Calm w → Stepped w)
    (h : IsPair cfg.maxDepth value es t es') (hcalm : Calm t) : Stepped t := by
  intro depth r hdepth hr
  obtain @⟨es', k, w, w', u, path, v, hk, -, hw, hw', hv, -⟩ := h
  have heq : IsInert Ch.eq := by decide
  have hone : ∀ c ∈ [Ch.eq], IsInert c := one_inert heq
  have hstep := hvalue u v hv (hcalm.sub fun c hc => by simp [hc]) depth r hdepth hr
  calc editBrackets depth (k ++ (w ++ Ch.eq :: (w' ++ u)) ++ r)
      = editBrackets depth (k ++ (w ++ Ch.eq :: (w' ++ (u ++ r)))) := by simp
    _ = editBrackets depth ([Ch.eq] ++ (w' ++ (u ++ r))) := by
      rw [editBrackets_path hk (head_ne_quote (inert_append (ws_inert hw) heq)),
        editBrackets_inert (ws_inert hw)]
      rfl
    _ = editBrackets depth r := by
      rw [editBrackets_inert hone, editBrackets_inert (ws_inert hw'), hstep]

/-- A value inside a bracket is stepped over. -/
lemma IsValueText.stepped (h : IsValueText cfg levels w v) (hcalm : Calm w) : Stepped w := by
  induction levels generalizing w v with
  | zero => exact IsFlat.stepped h
  | succ levels ih =>
    have hlist : ∀ {α : Type} {member : α → Bytes → α → Prop} {a b : α} {o c : UInt8} {t : Bytes},
        IsClosing c → (o = Ch.lbrace ∨ o = Ch.lbrack) →
        (∀ a t b, member a t b → Calm t → Stepped t) → Toml.IsMembers member c a t b →
        Calm (o :: t) → Stepped (o :: t) := by
      intro α member a b o c t hc ho hmember ht hcalm depth r hdepth _
      rw [List.cons_append, editBrackets_open ho, editBrackets_members hc hmember ht
        (hcalm.sub fun _ => List.mem_cons_of_mem o) (by omega), if_neg (by omega),
        add_sub_cancel_right]
    cases h with
    | flat h => exact h.stepped
    | array h =>
      refine hlist (.inl rfl) (.inr rfl) ?_ h hcalm
      rintro items t _ ⟨v, hv, rfl⟩ hcalm
      exact ih hv hcalm
    | inline h =>
      exact hlist (.inr rfl) (.inl rfl) (fun _ _ _ hpair => hpair.stepped fun _ _ => ih) h hcalm

/-- The values whose splices `teptris_edit_scalar` verifies. -/
def Node.isVerified : Node → Bool
  | .string _ | .array _ _ | .table _ _ => true
  | _ => false

lemma editSkipWs_eq : editSkipWs = skipWs := rfl

/-- What the scalar branch passes over behind a value is given back. -/
lemma isLineTail_scalar (hu : IsLineTail u q) :
    ∀ c ∈ (u ++ q).takeWhile editInScalar, editScalarTail c = true := by
  obtain ⟨w, c, n, hw, hc, hn, rfl⟩ := hu
  have hplain : ∀ c, isWs c = true → editInScalar c = true ∧ editScalarTail c = true := by
    intro c hc
    rcases isWs_cases hc with rfl | rfl <;> decide
  have hws : ∀ r, (w ++ r).takeWhile editInScalar = w ++ r.takeWhile editInScalar := fun r =>
    List.takeWhile_append_of_pos fun c hc => (hplain c (hw c hc)).1
  have hend : ∀ d ∈ (c ++ (n ++ q)).takeWhile editInScalar, d = Ch.cr := by
    rcases hc with rfl | hc
    · rcases hn with hn | ⟨rfl, rfl⟩
      · cases hn with
        | lf => exact fun d hd => absurd hd List.not_mem_nil
        | crlf => exact fun d hd => List.mem_singleton.mp hd
      · exact fun d hd => absurd hd List.not_mem_nil
    · obtain ⟨-⟩ := hc
      exact fun d hd => absurd hd List.not_mem_nil
  intro d hd
  simp only [List.append_assoc, hws] at hd
  rcases List.mem_append.mp hd with hd | hd
  · exact (hplain d (hw d hd)).2
  · rw [hend d hd]
    rfl

/-- The span of a value on the rest of its line is its text. -/
lemma editValueSpan_complete {w' : Bytes} (hw' : Toml.IsWs w')
    (hv : IsValueText cfg levels w v) (hcalm : Calm w) (hu : IsLineTail u q) :
    editValueSpan (w' ++ (w ++ (u ++ q))) = some ⟨w ++ (u ++ q), u ++ q, v.isVerified⟩ := by
  have hends : EndsValue (u ++ q) := hu.endsValue
  have hskip : ∀ {c : UInt8} {t : Bytes}, isWs c = false →
      editSkipWs (w' ++ (c :: t ++ (u ++ q))) = c :: (t ++ (u ++ q)) := by
    intro c t hc
    rw [editSkipWs_eq, skipWs_append hw', List.cons_append, skipWs_cons _ hc]
  have hquote : ∀ basic, (u ++ q).head? ≠ some (Toml.quote basic) := by
    intro basic hc
    rcases hends.head _ hc with hc | hc | hc | hc | hc | hc | hc <;> cases basic <;>
      exact absurd hc (by decide)
  have hflat : IsFlat cfg.fc w v →
      editValueSpan (w' ++ (w ++ (u ++ q))) = some ⟨w ++ (u ++ q), u ++ q, v.isVerified⟩ := by
    intro h
    cases h with
    | string h =>
      have hstring := editSkipString_complete h hquote
      obtain ⟨basic, t, rfl⟩ := isString_head h
      have hc : Toml.quote basic = Ch.squote ∨ Toml.quote basic = Ch.dquote :=
        (quote_cases basic).symm
      rw [editValueSpan, hskip (by cases basic <;> decide)]
      rw [List.cons_append] at hstring ⊢
      simp only [if_pos hc, hstring]
      rfl
    | token h =>
      have hbyte : ∀ c, isTokenByte c = true → editInScalar c = true ∧
          editScalarTail c = false := by
        intro c hc
        have hlf : c ≠ Ch.lf := ne_of_isTokenByte hc (by decide)
        have hhash : c ≠ Ch.hash := ne_of_isTokenByte hc (by decide)
        have hcr : c ≠ Ch.cr := ne_of_isTokenByte hc (by decide)
        have hws : editIsWs c = false := isWs_of_isTokenByte hc
        simp [editInScalar, editScalarTail, hlf, hhash, hcr, hws]
      have hend : (w ++ (u ++ q)).takeWhile editInScalar =
          w ++ (u ++ q).takeWhile editInScalar ∧ ∀ c ∈ w.getLast?, editScalarTail c = false := by
        obtain ⟨a, x, rfl, hx, ha⟩ := isToken_bytes h
        refine ⟨List.takeWhile_append_of_pos fun c hc => ?_, fun c hc => ?_⟩
        · rcases List.mem_append.mp hc with hc | hc
          · rcases ha c hc with hc | rfl
            · exact (hbyte c hc).1
            · decide
          · exact (hbyte c (hx.2 c hc)).1
        · rw [List.getLast?_append_of_ne_nil _ hx.1] at hc
          exact (hbyte c (hx.2 c (List.mem_of_getLast? hc))).2
      have hspan : ((w ++ (u ++ q)).takeWhile editInScalar).rdropWhile editScalarTail = w := by
        rw [hend.1]
        exact Runs.trail hend.2 (isLineTail_scalar hu)
      have hkind : v.isVerified = false := by
        cases h with
        | @datetime _ x => cases x <;> rfl
        | _ => rfl
      have hinert := isToken_inert h
      obtain ⟨c, t, rfl, hc⟩ := isToken_head h
      obtain ⟨hs, hd, hl, hk, -⟩ := hinert c (by simp)
      rw [editValueSpan, hskip (isWs_of_isTokenByte hc), hkind]
      rw [List.cons_append] at hspan ⊢
      simp only [hs, hd, hl, hk, or_self, if_false, hspan]
      simp
  have hlist : ∀ {α : Type} {member : α → Bytes → α → Prop} {a b : α} {o c : UInt8} {t : Bytes},
      IsClosing c → (o = Ch.lbrace ∨ o = Ch.lbrack) →
      (∀ a t b, member a t b → Calm t → Stepped t) → Toml.IsMembers member c a t b →
      Calm (o :: t) → editValueSpan (w' ++ (o :: t ++ (u ++ q))) =
        some ⟨o :: t ++ (u ++ q), u ++ q, true⟩ := by
    intro α member a b o c t hc ho hmember ht hcalm
    have hbrackets : editBrackets 0 (o :: (t ++ (u ++ q))) = .ok (u ++ q) := by
      rw [editBrackets_open ho, editBrackets_members hc hmember ht
        (hcalm.sub fun _ => List.mem_cons_of_mem o) (by decide), if_pos (by decide)]
    have hne : ¬ (o = Ch.squote ∨ o = Ch.dquote) := by rcases ho with rfl | rfl <;> decide
    rw [editValueSpan, hskip (by rcases ho with rfl | rfl <;> rfl)]
    simp only [if_neg hne, if_pos ho, hbrackets]
    rfl
  cases levels with
  | zero => exact hflat hv
  | succ levels =>
    cases hv with
    | flat h => exact hflat h
    | array h =>
      refine hlist (.inl rfl) (.inr rfl) ?_ h hcalm
      rintro items t _ ⟨v, hv, rfl⟩ hcalm
      exact hv.stepped hcalm
    | inline h =>
      exact hlist (.inr rfl) (.inl rfl) (fun _ _ _ hpair hcalm => hpair.stepped
        (fun _ _ hv hcalm => hv.stepped hcalm) hcalm) h hcalm

/-- Behind the `=`, the editor replaces the bytes that the parser reads as the value, where no line
of the value ends in a comment. -/
theorem editValueSpan_parsed {cp q' : Bytes} (hw : Toml.IsWs w)
    (hvalue : parseValueFast cfg cp levels r = .ok (v, q)) (hline : finishLine q = .ok q')
    (hcalm : Calm (r.take (r.length - q.length))) :
    editValueSpan (w ++ r) = some ⟨r, q, v.isVerified⟩ := by
  obtain ⟨u, hu, rfl⟩ := finishLine_sound hline
  rw [parseValueFast_eq] at hvalue
  obtain ⟨t, rfl, ht⟩ := value_sound hvalue hu.endsValue
  have htext : (t ++ (u ++ q')).take ((t ++ (u ++ q')).length - (u ++ q').length) = t := by
    rw [List.length_append, Nat.add_sub_cancel, List.take_left]
  rw [htext] at hcalm
  exact editValueSpan_complete hw ht hcalm hu

/-- `true` in front of a comment with a bracket. -/
theorem editValueSpan_parsed_true :
    editValueSpan (Ch.sp :: (ascii "true" ++ (ascii " # ]" ++ [Ch.lf]))) =
      some ⟨ascii "true" ++ (ascii " # ]" ++ [Ch.lf]), ascii " # ]" ++ [Ch.lf], false⟩ := by
  have hsp : Toml.IsWs [Ch.sp] := fun _ h => List.mem_singleton.mp h ▸ rfl
  have htail : IsLineTail (ascii " # ]" ++ [Ch.lf]) [] :=
    ⟨[Ch.sp], _, [Ch.lf], hsp, .inr (@Toml.IsComment.mk (ascii " ]") (List.all_eq_true.mp rfl)),
      .inl .lf, rfl⟩
  have hends : EndsValue (ascii " # ]" ++ [Ch.lf]) := htail.endsValue
  have hvalue : parseValueFast (.ofOptions .zero 0) [] 0
      (ascii "true" ++ (ascii " # ]" ++ [Ch.lf])) =
      .ok (.boolean true, ascii " # ]" ++ [Ch.lf]) := by
    rw [parseValueFast_eq]
    exact @value_complete _ _ _ _ _ 0 (IsFlat.token (.boolean true)) hends
  exact @editValueSpan_parsed _ [Ch.sp] _ _ _ _ _ [] hsp hvalue (finishLine_complete htail)
    (.inl (by decide))

end Values

end Teptris
