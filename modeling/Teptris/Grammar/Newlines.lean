import Teptris.Grammar.Document
import Teptris.Library.TomlLines

/-!
# Documents with other line ends

A value, a statement and a document can be read in either style of line ends, so `teptris_parse`
gives both styles of a document the same tree.
-/

namespace Teptris

open Toml (SameLines Restyles restyles_plain sameLines_byte)

/-! ## Values and statements -/

section Restyled

variable {cfg : Config} {w t : Bytes} {v : Node} {x : Statement} {levels : ℕ}

/-- A token stands on its line. -/
lemma IsToken.restyles (h : IsToken cfg.fc w v) : Restyles (IsToken cfg.fc · v) w := by
  have hplain : ∀ c, isTokenByte c = true → c ≠ Ch.lf ∧ c ≠ Ch.cr := fun c hc =>
    ⟨ne_of_isTokenByte hc (by decide), ne_of_isTokenByte hc (by decide)⟩
  have hbytes : ∀ c ∈ w, c ≠ Ch.lf ∧ c ≠ Ch.cr := by
    obtain ⟨a, u, rfl, hu, ha⟩ := isToken_bytes h
    intro c hc
    rcases List.mem_append.mp hc with hc | hc
    · rcases ha c hc with hc | rfl
      · exact hplain c hc
      · decide
    · exact hplain c (hu.2 c hc)
  exact (restyles_plain hbytes).imp fun _ ht => ht ▸ h

lemma IsFlat.restyles (h : IsFlat cfg.fc w v) : Restyles (IsFlat cfg.fc · v) w := by
  cases h with
  | token h => exact h.restyles.imp fun _ => .token
  | string h => exact h.restyles.imp fun _ => .string

/-- A key path, white space and the equals sign in front of what can be restyled. -/
lemma restyles_pair {k w w' u : Bytes} {ks : List Bytes} {G : Bytes → Prop}
    (hk : Toml.IsPath k ks) (hw : Toml.IsWs w) (hw' : Toml.IsWs w') (hu : Restyles G u) :
    Restyles (fun t => ∃ u, t = k ++ (w ++ Ch.eq :: (w' ++ u)) ∧ G u)
      (k ++ (w ++ Ch.eq :: (w' ++ u))) := by
  have hvalue : Restyles (fun t => ∃ u, t = w' ++ u ∧ G u) (w' ++ u) :=
    hw'.restyles.append hu fun t u ht hu => ⟨u, by rw [ht], hu⟩
  have heq : Restyles (fun t => ∃ u, t = Ch.eq :: (w' ++ u) ∧ G u) (Ch.eq :: (w' ++ u)) :=
    hvalue.cons (by decide) fun t ⟨u, ht, hu⟩ => ⟨u, by rw [ht], hu⟩
  have hgap : Restyles (fun t => ∃ u, t = w ++ Ch.eq :: (w' ++ u) ∧ G u)
      (w ++ Ch.eq :: (w' ++ u)) :=
    hw.restyles.append heq fun t _ ht ⟨u, hq, hu⟩ => ⟨u, by rw [ht, hq], hu⟩
  exact (restyles_plain hk.plain).append hgap fun t _ ht ⟨u, hq, hu⟩ => ⟨u, by rw [ht, hq], hu⟩

lemma IsPair.restyles {value : Bytes → Node → Prop} {es es' : Entries}
    (hvalue : ∀ w v, value w v → Restyles (value · v) w)
    (h : IsPair cfg.maxDepth value es t es') :
    Restyles (IsPair cfg.maxDepth value es · es') t := by
  obtain ⟨hk, hlen, hw, hw', hv, ht⟩ := h
  refine (restyles_pair hk hw hw' (hvalue _ _ hv)).imp ?_
  rintro _ ⟨u, rfl, hu⟩
  exact .mk hk hlen hw hw' hu ht

/-- A value can be read in either style. -/
lemma IsValueText.restyles (h : IsValueText cfg levels w v) :
    Restyles (IsValueText cfg levels · v) w := by
  induction levels generalizing w v with
  | zero => exact IsFlat.restyles h
  | succ levels ih =>
    cases h with
    | flat h => exact h.restyles.imp fun _ => .flat
    | array h =>
      refine (h.restyles (by decide) ?_).cons (by decide) fun _ => .array
      rintro items t _ ⟨v, hv, rfl⟩
      exact (ih hv).imp fun _ hv => ⟨v, hv, rfl⟩
    | inline h =>
      exact (h.restyles (by decide) fun _ _ _ hpair => hpair.restyles fun _ _ => ih).cons
        (by decide) fun _ => .inline

lemma IsStatement.restyles (h : IsStatement cfg t x) : Restyles (IsStatement cfg · x) t := by
  cases x with
  | header aot path =>
    obtain ⟨hlen, w, k, w', hw, hw', hk, rfl⟩ := isStatement_header.mp h
    refine (restyles_plain fun c hc => ?_).imp fun _ ht => ht ▸ h
    simp only [bracketed, List.mem_append] at hc
    rcases hc with hc | (hc | hc | hc) | hc
    · cases aot <;> simp at hc <;> subst hc <;> decide
    · exact Toml.isWschar_plain (hw c hc)
    · exact hk.plain c hc
    · exact Toml.isWschar_plain (hw' c hc)
    · cases aot <;> simp at hc <;> subst hc <;> decide
  | pair path v =>
    cases h with
    | pair hk hlen hw hw' hv =>
      refine (restyles_pair hk hw hw' hv.restyles).imp ?_
      rintro _ ⟨u, rfl, hu⟩
      exact .pair hk hlen hw hw' hu

end Restyled

/-! ## Whole documents -/

section Documents

variable {cfg : Config} {t u data data' : Bytes}

/-- The style of line ends makes no difference to UTF-8. -/
lemma valid_sameLines (h : SameLines t u) (ht : Utf8.Valid t) : Utf8.Valid u := by
  have hnewline : ∀ {n : Bytes}, Toml.IsNewline n → ∀ c ∈ n, c < 0x80 := by
    rintro _ (_ | _) <;> simp
  have hfront : ∀ p, Utf8.Valid (p ++ t) → Utf8.Valid (p ++ u) := by
    clear ht
    induction h with
    | nil => exact fun _ h => h
    | @byte c t u _ _ ih =>
      intro p hp
      simpa using ih (p ++ [c]) (by simpa using hp)
    | @newline n n' t u hn hn' _ ih =>
      intro p hp
      have hstart : ∀ c ∈ (n ++ t).head?, c < 0x80 := by
        cases hn <;> intro c hc <;> obtain rfl := Option.some.inj hc <;> decide
      have ht := (hp.of_append_right hstart).of_append_right' (hnewline hn)
      exact (hp.of_append_left hstart).append
        ((Utf8.valid_of_ascii (hnewline hn')).append (ih [] ht))
  exact hfront [] ht

/-- A byte order mark has no line end. -/
lemma sameLines_skipBom (h : SameLines data data') :
    SameLines (skipBom data) (skipBom data') := by
  have hbom : ∀ c ∈ bom, c ≠ Ch.lf ∧ c ≠ Ch.cr := by simp [bom, Ch.lf, Ch.cr]
  have hprefix : ∀ {t u : Bytes}, SameLines t u → bom <+: t →
      ∃ q q', t = bom ++ q ∧ u = bom ++ q' ∧ SameLines q q' := by
    rintro _ u h ⟨q, rfl⟩
    obtain ⟨_, q', rfl, rfl, hq⟩ := restyles_plain hbom q u h
    exact ⟨q, q', rfl, rfl, hq⟩
  by_cases ht : bom <+: data
  · obtain ⟨q, q', rfl, rfl, hq⟩ := hprefix h ht
    rw [skipBom, skipBom, if_pos (List.prefix_append _ _), if_pos (List.prefix_append _ _)]
    exact hq
  · have hu : ¬ bom <+: data' := fun hu => by
      obtain ⟨q, q', -, rfl, -⟩ := hprefix h.symm hu
      exact ht (List.prefix_append _ _)
    rwa [skipBom, skipBom, if_neg ht, if_neg hu]

/-- One style of a document is parsed as the other is. -/
lemma parserRun_sameLines (hmax : 8 ≤ cfg.maxDepth) (h : SameLines data data') {root : Entries}
    (hrun : parserRun cfg data = .ok root) : parserRun cfg data' = .ok root := by
  obtain ⟨hvalid, xs, cur, hdoc, hbuild⟩ := (parserRun_iff hmax).mp hrun
  have hstyles : Restyles (Toml.IsDocument (IsStatement cfg) · xs) (skipBom data) :=
    hdoc.restyles fun _ _ hx => hx.restyles
  exact (parserRun_iff hmax).mpr
    ⟨valid_sameLines h hvalid, xs, cur, hstyles.whole (sameLines_skipBom h), hbuild⟩

end Documents

end Teptris
