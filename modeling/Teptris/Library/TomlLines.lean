import Teptris.Library.TomlSyntax

/-!
# Line-end styles

Texts that differ in nothing but the style of their line ends, each written LF or CRLF, mean the
same: white space, strings, keys, member lists and lines can be read in either style.
-/

namespace Toml

/-- Texts that differ in the style of their line ends only. -/
inductive SameLines : List UInt8 → List UInt8 → Prop
  | nil : SameLines [] []
  | byte {c : UInt8} {t u : List UInt8} (hc : c ≠ 0x0A ∧ c ≠ 0x0D) (h : SameLines t u) :
      SameLines (c :: t) (c :: u)
  | newline {n n' t u : List UInt8} (hn : IsNewline n) (hn' : IsNewline n') (h : SameLines t u) :
      SameLines (n ++ t) (n' ++ u)

/-- In front of any text, `t` can be written in another style with `G` kept. -/
def Restyles (G : List UInt8 → Prop) (t : List UInt8) : Prop :=
  ∀ q u, SameLines (t ++ q) u → ∃ t' q', u = t' ++ q' ∧ G t' ∧ SameLines q q'

section Same

variable {c : UInt8} {n t u q : List UInt8} {G H K : List UInt8 → Prop}

lemma SameLines.symm (h : SameLines t u) : SameLines u t := by
  induction h with
  | nil => exact .nil
  | byte hc _ ih => exact .byte hc ih
  | newline hn hn' _ ih => exact .newline hn' hn ih

lemma sameLines_nil (h : SameLines [] u) : u = [] := by
  generalize hnil : ([] : List UInt8) = t at h
  cases h with
  | nil => rfl
  | byte => cases hnil
  | newline hn => cases hn <;> cases hnil

/-- A byte of no line end stays in place. -/
lemma sameLines_byte (hc : c ≠ 0x0A ∧ c ≠ 0x0D) (h : SameLines (c :: t) u) :
    ∃ u', u = c :: u' ∧ SameLines t u' := by
  generalize hcons : c :: t = s at h
  cases h with
  | nil => cases hcons
  | byte hc h =>
    obtain ⟨rfl, rfl⟩ := List.cons.inj hcons
    exact ⟨_, rfl, h⟩
  | newline hn =>
    cases hn
    · exact absurd (List.cons.inj hcons).1 hc.1
    · exact absurd (List.cons.inj hcons).1 hc.2

/-- A line end stays one. -/
lemma sameLines_newline (hn : IsNewline n) (h : SameLines (n ++ t) u) :
    ∃ n' u', u = n' ++ u' ∧ IsNewline n' ∧ SameLines t u' := by
  generalize hcons : n ++ t = s at h
  cases h with
  | nil => cases hn <;> cases hcons
  | byte hc h =>
    cases hn with
    | lf => exact absurd (List.cons.inj hcons).1.symm hc.1
    | crlf => exact absurd (List.cons.inj hcons).1.symm hc.2
  | newline hn₁ hn' h =>
    refine ⟨_, _, rfl, hn', ?_⟩
    cases hn <;> cases hn₁ <;> simp at hcons <;> exact hcons ▸ h

/-- A first byte of no line end is the first byte in every style. -/
lemma sameLines_head (hc : c ≠ 0x0A ∧ c ≠ 0x0D) (h : SameLines t u) :
    t.head? = some c ↔ u.head? = some c := by
  have hone : ∀ {t u}, SameLines t u → t.head? = some c → u.head? = some c := by
    intro t u h ht
    obtain ⟨t, rfl⟩ := List.head?_eq_some_iff.mp ht
    obtain ⟨u', rfl, -⟩ := sameLines_byte hc h
    rfl
  exact ⟨hone h, hone h.symm⟩

/-- A text without line ends has one style. -/
lemma restyles_plain (ht : ∀ c ∈ t, c ≠ 0x0A ∧ c ≠ 0x0D) : Restyles (· = t) t := by
  intro q u hu
  induction t generalizing u with
  | nil => exact ⟨[], u, rfl, rfl, hu⟩
  | cons c t ih =>
    obtain ⟨v, rfl, hv⟩ := sameLines_byte (ht c (by simp)) hu
    obtain ⟨_, q', rfl, rfl, hq⟩ := ih (fun d hd => ht d (List.mem_cons_of_mem c hd)) v hv
    exact ⟨_, q', rfl, rfl, hq⟩

lemma restyles_newline (hn : IsNewline n) : Restyles IsNewline n := fun q u hu => by
  obtain ⟨n', q', rfl, hn', hq⟩ := sameLines_newline hn hu
  exact ⟨n', q', rfl, hn', hq⟩

lemma Restyles.imp (h : Restyles G t) (himp : ∀ t, G t → H t) : Restyles H t := by
  intro q u hu
  obtain ⟨t', q', rfl, ht', hq⟩ := h q u hu
  exact ⟨t', q', rfl, himp t' ht', hq⟩

/-- One text behind another. -/
lemma Restyles.append (h : Restyles G t) (h' : Restyles H u)
    (hK : ∀ t' u', G t' → H u' → K (t' ++ u')) : Restyles K (t ++ u) := by
  intro q x hx
  rw [List.append_assoc] at hx
  obtain ⟨t', y, rfl, ht', hy⟩ := h _ _ hx
  obtain ⟨u', q', rfl, hu', hq⟩ := h' _ _ hy
  exact ⟨t' ++ u', q', (List.append_assoc _ _ _).symm, hK t' u' ht' hu', hq⟩

lemma Restyles.cons (hc : c ≠ 0x0A ∧ c ≠ 0x0D) (h : Restyles H t)
    (hK : ∀ t', H t' → K (c :: t')) : Restyles K (c :: t) := by
  have hone : ∀ d ∈ [c], d ≠ 0x0A ∧ d ≠ 0x0D := fun d hd => List.mem_singleton.mp hd ▸ hc
  refine (restyles_plain hone).append h ?_
  rintro _ t' rfl ht'
  exact hK t' ht'

lemma restyles_line (hn : IsNewline n) (h : Restyles G t) :
    Restyles (fun x => ∃ n' t', x = n' ++ t' ∧ IsNewline n' ∧ G t') (n ++ t) :=
  (restyles_newline hn).append h fun n' t' hn' ht' => ⟨n', t', rfl, hn', ht'⟩

/-- A text as a whole. -/
lemma Restyles.whole (h : Restyles G t) (hu : SameLines t u) : G u := by
  rw [← List.append_nil t] at hu
  obtain ⟨t', q', rfl, ht', hq⟩ := h _ _ hu
  obtain rfl := sameLines_nil hq
  rwa [List.append_nil]

end Same

/-! ## White space and comments -/

section Blanks

variable {t : List UInt8}

/-- A class of bytes without those of line ends. -/
lemma plain_of {p : UInt8 → Bool} (hlf : p 0x0A = false) (hcr : p 0x0D = false) {c : UInt8}
    (hc : p c = true) : c ≠ 0x0A ∧ c ≠ 0x0D := by
  constructor
  · rintro rfl
    rw [hlf] at hc
    cases hc
  · rintro rfl
    rw [hcr] at hc
    cases hc

lemma isWschar_plain {c : UInt8} (hc : isWschar c = true) : c ≠ 0x0A ∧ c ≠ 0x0D :=
  plain_of rfl rfl hc

lemma isNonEol_plain {c : UInt8} (hc : isNonEol c = true) : c ≠ 0x0A ∧ c ≠ 0x0D :=
  plain_of rfl rfl hc

lemma IsWs.restyles (ht : IsWs t) : Restyles (· = t) t :=
  restyles_plain fun c hc => isWschar_plain (ht c hc)

lemma IsComment.restyles (ht : IsComment t) : Restyles (· = t) t := by
  obtain ⟨ht⟩ := ht
  refine restyles_plain fun c hc => ?_
  rcases List.mem_cons.mp hc with rfl | hc
  · decide
  · exact isNonEol_plain (ht c hc)

lemma IsRemark.restyles (ht : IsRemark t) : Restyles (· = t) t := by
  rcases ht with rfl | ht
  · exact restyles_plain fun _ h => absurd h List.not_mem_nil
  · exact ht.restyles

lemma IsBlank.restyles (ht : IsBlank t) : Restyles IsBlank t := by
  induction ht with
  | nil => exact (restyles_plain fun _ h => absurd h List.not_mem_nil).imp fun _ h => h ▸ .nil
  | ws hc _ ih => exact ih.cons (isWschar_plain hc) fun _ => .ws hc
  | newline hn _ ih => exact (restyles_newline hn).append ih fun _ _ => .newline

lemma IsGap.restyles (ht : IsGap t) : Restyles IsGap t := by
  induction ht with
  | nil => exact (restyles_plain fun _ h => absurd h List.not_mem_nil).imp fun _ h => h ▸ .nil
  | ws hc _ ih => exact ih.cons (isWschar_plain hc) fun _ => .ws hc
  | newline hn _ ih => exact (restyles_newline hn).append ih fun _ _ => .newline
  | comment hc hn _ ih =>
    refine hc.restyles.append (restyles_line hn ih) ?_
    rintro _ _ rfl ⟨n, t, rfl, hn, ht⟩
    exact .comment hc hn ht

end Blanks

/-! ## Strings and keys -/

section Strings

variable {basic : Bool} {t s x : List UInt8} {ks : List (List UInt8)}

lemma IsEscape.plain (ht : IsEscape t x) : ∀ c ∈ t, c ≠ 0x0A ∧ c ≠ 0x0D := by
  have hhex : ∀ {n cp : ℕ} {e : UInt8} {t : List UInt8}, e ≠ 0x0A ∧ e ≠ 0x0D → IsHex n t cp →
      ∀ c ∈ e :: t, c ≠ 0x0A ∧ c ≠ 0x0D := by
    intro n cp e t he h c hc
    rcases List.mem_cons.mp hc with rfl | hc
    · exact he
    · exact plain_of rfl rfl (h.digits c hc)
  cases ht with
  | @short e b h =>
    intro c hc
    obtain rfl := List.mem_singleton.mp hc
    exact plain_of (p := fun e => (shortEscape e).isSome) rfl rfl (by rw [h]; rfl)
  | two h => exact hhex (by decide) h
  | four h => exact hhex (by decide) h
  | eight h => exact hhex (by decide) h

lemma quote_plain (basic : Bool) : quote basic ≠ 0x0A ∧ quote basic ≠ 0x0D := by
  cases basic <;> decide

lemma isOrdinary_plain {c : UInt8} (hc : isOrdinary basic c = true) : c ≠ 0x0A ∧ c ≠ 0x0D := by
  cases basic <;> exact plain_of rfl rfl hc

lemma IsChars.plain (ht : IsChars basic t s) : ∀ c ∈ t, c ≠ 0x0A ∧ c ≠ 0x0D := by
  induction ht with
  | nil => exact fun _ h => absurd h List.not_mem_nil
  | char hd _ ih =>
    intro c hc
    rcases List.mem_cons.mp hc with rfl | hc
    · exact isOrdinary_plain hd
    · exact ih c hc
  | escape _ he _ ih =>
    intro c hc
    rcases List.mem_cons.mp hc with rfl | hc
    · decide
    · exact (List.mem_append.mp hc).elim (he.plain c) (ih c)

lemma IsQuoted.plain (ht : IsQuoted t s) : ∀ c ∈ t, c ≠ 0x0A ∧ c ≠ 0x0D := by
  obtain @⟨basic, t, s, h⟩ := ht
  intro c hc
  rcases List.mem_cons.mp hc with rfl | hc
  · exact quote_plain basic
  · rcases List.mem_append.mp hc with hc | hc
    · exact h.plain c hc
    · exact List.mem_singleton.mp hc ▸ quote_plain basic

lemma IsKey.plain (ht : IsKey t s) : ∀ c ∈ t, c ≠ 0x0A ∧ c ≠ 0x0D := by
  cases ht with
  | bare ht => exact fun c hc => plain_of rfl rfl (ht c hc)
  | quoted h => exact h.plain

lemma IsPath.plain (ht : IsPath t ks) : ∀ c ∈ t, c ≠ 0x0A ∧ c ≠ 0x0D := by
  induction ht with
  | one h => exact h.plain
  | dotted h hw hw' _ ih =>
    intro c hc
    simp only [List.mem_append, List.mem_cons] at hc
    rcases hc with hc | hc | rfl | hc | hc
    · exact h.plain c hc
    · exact isWschar_plain (hw c hc)
    · decide
    · exact isWschar_plain (hw' c hc)
    · exact ih c hc

/-- The body of a multi-line string starts with a line end or with a byte of none. -/
lemma IsMlBody.front (ht : IsMlBody basic t s) :
    StartsNewline t ∨ ∃ c t', t = c :: t' ∧ c ≠ 0x0A ∧ c ≠ 0x0D := by
  have hquotes : ∀ {n : ℕ} (u : List UInt8), 0 < n →
      ∃ c t', List.replicate n (quote basic) ++ u = c :: t' ∧ c ≠ 0x0A ∧ c ≠ 0x0D := by
    intro n u hn
    obtain ⟨n, rfl⟩ := Nat.exists_eq_succ_of_ne_zero hn.ne'
    exact ⟨_, _, rfl, quote_plain basic⟩
  cases ht with
  | @close n hn =>
    have hfirst := @hquotes (n + 3) [] (Nat.succ_pos _)
    rw [List.append_nil] at hfirst
    exact .inr hfirst
  | quotes hn => exact .inr (hquotes _ (by omega))
  | char hc => exact .inr ⟨_, _, rfl, isOrdinary_plain hc⟩
  | newline hn => exact .inl ⟨_, _, hn, rfl⟩
  | escape => exact .inr ⟨_, _, rfl, by decide⟩
  | fold => exact .inr ⟨_, _, rfl, by decide⟩

/-- Two styles of one body start the same way. -/
lemma IsMlBody.same_front {u q q' s' : List UInt8} (ht : IsMlBody basic t s)
    (hu : IsMlBody basic u s') (h : SameLines (t ++ q) (u ++ q')) :
    (StartsNewline t ↔ StartsNewline u) ∧
      ∀ c, c ≠ 0x0A ∧ c ≠ 0x0D → (t.head? = some c ↔ u.head? = some c) := by
  have hnewline : ∀ {c : UInt8} {t : List UInt8}, c ≠ 0x0A ∧ c ≠ 0x0D →
      ¬ StartsNewline (c :: t) := by
    rintro c t hc ⟨n, r, hn, h⟩
    cases hn
    · exact hc.1 (List.cons.inj h).1
    · exact hc.2 (List.cons.inj h).1
  have hone : ∀ {t u q q' s s' : List UInt8}, IsMlBody basic t s → IsMlBody basic u s' →
      SameLines (t ++ q) (u ++ q') → ∀ c, c ≠ 0x0A ∧ c ≠ 0x0D → t.head? = some c →
        u.head? = some c := by
    intro t u q q' s s' ht hu h c hc hfirst
    obtain ⟨t, rfl⟩ := List.head?_eq_some_iff.mp hfirst
    have := (sameLines_head hc h).mp rfl
    rcases hu.front with ⟨n, r, hn, rfl⟩ | ⟨d, u, rfl, -⟩
    · cases hn
      · exact absurd (Option.some.inj this) (Ne.symm hc.1)
      · exact absurd (Option.some.inj this) (Ne.symm hc.2)
    · exact this
  have hline : ∀ {t u q q' s s' : List UInt8}, IsMlBody basic t s → IsMlBody basic u s' →
      SameLines (t ++ q) (u ++ q') → StartsNewline u → StartsNewline t := by
    intro t u q q' s s' ht hu h hstart
    rcases ht.front with hstart' | ⟨c, t, rfl, hc⟩
    · exact hstart'
    · have hfirst := hone ht hu h c hc rfl
      obtain ⟨u, rfl⟩ := List.head?_eq_some_iff.mp hfirst
      exact absurd hstart (hnewline hc)
  exact ⟨⟨hline hu ht h.symm, hline ht hu h⟩,
    fun c hc => ⟨hone ht hu h c hc, hone hu ht h.symm c hc⟩⟩

lemma IsMlBody.restyles (ht : IsMlBody basic t s) : Restyles (IsMlBody basic · s) t := by
  have hquotes : ∀ n, Restyles (· = List.replicate n (quote basic))
      (List.replicate n (quote basic)) := fun n =>
    restyles_plain fun c hc => (List.mem_replicate.mp hc).2 ▸ quote_plain basic
  induction ht with
  | close hn => exact (hquotes _).imp fun _ h => h ▸ .close hn
  | char hc _ ih => exact ih.cons (isOrdinary_plain hc) fun _ => .char hc
  | newline hn _ ih => exact (restyles_newline hn).append ih fun _ _ => .newline
  | escape hb he _ ih =>
    refine Restyles.cons (by decide) ((restyles_plain he.plain).append ih ?_) fun _ h => h
    rintro _ t' rfl ht'
    exact .escape hb he ht'
  | @quotes n t s hn hfirst h ih =>
    intro q u hu
    rw [List.append_assoc] at hu
    obtain ⟨_, v, rfl, rfl, hv⟩ := hquotes n _ _ hu
    obtain ⟨t', q', rfl, ht', hq⟩ := ih _ _ hv
    refine ⟨_, q', (List.append_assoc _ _ _).symm, .quotes hn (fun hfirst' => hfirst ?_) ht', hq⟩
    exact ((h.same_front ht' hv).2 _ (quote_plain basic)).mpr hfirst'
  | @fold w n g t s hb hw hn hg hsolid h ih =>
    intro q u hu
    simp only [List.append_assoc, List.cons_append] at hu
    obtain ⟨v, rfl, hv⟩ := sameLines_byte (by decide) hu
    obtain ⟨_, x, rfl, rfl, hx⟩ := hw.restyles _ _ hv
    obtain ⟨n', y, rfl, hn', hy⟩ := restyles_newline hn _ _ hx
    obtain ⟨g', z, rfl, hg', hz⟩ := hg.restyles _ _ hy
    obtain ⟨t', q', rfl, ht', hq⟩ := ih _ _ hz
    obtain ⟨hline, hfirst⟩ := h.same_front ht' hz
    refine ⟨_, q', by simp, .fold hb hw hn' hg' ⟨fun c hc => ?_, fun h => ?_⟩ ht', hq⟩
    · by_cases hplain : c ≠ 0x0A ∧ c ≠ 0x0D
      · exact hsolid.1 c ((hfirst c hplain).mpr hc)
      · rw [Bool.eq_false_iff]
        exact fun h => hplain (isWschar_plain h)
    · exact hsolid.2 (hline.mpr h)

lemma IsString.restyles (ht : IsString t s) : Restyles (IsString · s) t := by
  have hquotes : ∀ {basic}, Restyles (· = List.replicate 3 (quote basic))
      (List.replicate 3 (quote basic)) := fun {basic} =>
    restyles_plain fun c hc => (List.mem_replicate.mp hc).2 ▸ quote_plain basic
  rcases ht with h | h
  · exact (restyles_plain h.plain).imp fun _ ht => ht ▸ .inl h
  · cases h with
    | newline hn h =>
      refine hquotes.append (restyles_line hn h.restyles) ?_
      rintro _ _ rfl ⟨n, t, rfl, hn, ht⟩
      exact .inr (.newline hn ht)
    | @plain basic t s hstart h =>
      intro q u hu
      rw [List.append_assoc] at hu
      obtain ⟨_, v, rfl, rfl, hv⟩ := hquotes _ _ hu
      obtain ⟨t', q', rfl, ht', hq⟩ := h.restyles _ _ hv
      exact ⟨_, q', (List.append_assoc _ _ _).symm,
        .inr (.plain (fun h' => hstart ((h.same_front ht' hv).1.mpr h')) ht'), hq⟩

end Strings

/-! ## Members and lines -/

section Lists

variable {α : Type} {member : α → List UInt8 → α → Prop} {statement : List UInt8 → α → Prop}
  {close : UInt8} {a b : α} {t u : List UInt8} {xs : List α}

/-- A member list takes another style where its members do. -/
lemma IsMembers.restyles (hclose : close ≠ 0x0A ∧ close ≠ 0x0D)
    (hmember : ∀ a t b, member a t b → Restyles (member a · b) t)
    (ht : IsMembers member close a t b) : Restyles (IsMembers member close a · b) t := by
  have hend : Restyles (· = [close]) [close] :=
    restyles_plain fun c hc => List.mem_singleton.mp hc ▸ hclose
  induction ht with
  | close hg =>
    refine hg.restyles.append hend ?_
    rintro g _ hg rfl
    exact .close hg
  | last hg h hg' =>
    intro q u hu
    simp only [List.append_assoc] at hu
    obtain ⟨g, v, rfl, hg, hv⟩ := hg.restyles _ _ hu
    obtain ⟨t, w, rfl, ht, hw⟩ := hmember _ _ _ h _ _ hv
    obtain ⟨g', x, rfl, hg', hx⟩ := hg'.restyles _ _ hw
    obtain ⟨_, q', rfl, rfl, hq⟩ := hend _ _ hx
    exact ⟨_, q', by simp, .last hg ht hg', hq⟩
  | more hg h hg' _ ih =>
    intro q u hu
    simp only [List.append_assoc, List.cons_append] at hu
    obtain ⟨g, v, rfl, hg, hv⟩ := hg.restyles _ _ hu
    obtain ⟨t, w, rfl, ht, hw⟩ := hmember _ _ _ h _ _ hv
    obtain ⟨g', x, rfl, hg', hx⟩ := hg'.restyles _ _ hw
    obtain ⟨y, rfl, hy⟩ := sameLines_byte (by decide) hx
    obtain ⟨u, q', rfl, hu, hq⟩ := ih _ _ hy
    exact ⟨_, q', by simp, .more hg ht hg' hu, hq⟩

/-- A document takes another style where its statements do. -/
lemma IsDocument.restyles (hstatement : ∀ t x, statement t x → Restyles (statement · x) t)
    (ht : IsDocument statement t xs) : Restyles (IsDocument statement · xs) t := by
  induction ht with
  | nil hw hc =>
    refine hw.restyles.append hc.restyles ?_
    rintro _ _ rfl rfl
    exact .nil hw hc
  | last hw h hw' hc =>
    intro q u hu
    simp only [List.append_assoc] at hu
    obtain ⟨_, v, rfl, rfl, hv⟩ := hw.restyles _ _ hu
    obtain ⟨t, w, rfl, ht, hx⟩ := hstatement _ _ h _ _ hv
    obtain ⟨_, y, rfl, rfl, hy⟩ := hw'.restyles _ _ hx
    obtain ⟨_, q', rfl, rfl, hq⟩ := hc.restyles _ _ hy
    exact ⟨_, q', by simp, .last hw ht hw' hc, hq⟩
  | blank hw hc hn _ ih =>
    intro q u hu
    simp only [List.append_assoc] at hu
    obtain ⟨_, v, rfl, rfl, hv⟩ := hw.restyles _ _ hu
    obtain ⟨_, x, rfl, rfl, hx⟩ := hc.restyles _ _ hv
    obtain ⟨n, y, rfl, hn, hy⟩ := restyles_newline hn _ _ hx
    obtain ⟨u, q', rfl, hu, hq⟩ := ih _ _ hy
    exact ⟨_, q', by simp, .blank hw hc hn hu, hq⟩
  | line hw h hw' hc hn _ ih =>
    intro q u hu
    simp only [List.append_assoc] at hu
    obtain ⟨_, v, rfl, rfl, hv⟩ := hw.restyles _ _ hu
    obtain ⟨t, x, rfl, ht, hx⟩ := hstatement _ _ h _ _ hv
    obtain ⟨_, y, rfl, rfl, hy⟩ := hw'.restyles _ _ hx
    obtain ⟨_, z, rfl, rfl, hz⟩ := hc.restyles _ _ hy
    obtain ⟨n, a, rfl, hn, ha⟩ := restyles_newline hn _ _ hz
    obtain ⟨u, q', rfl, hu, hq⟩ := ih _ _ ha
    exact ⟨_, q', by simp, .line hw ht hw' hc hn hu, hq⟩

end Lists

end Toml
