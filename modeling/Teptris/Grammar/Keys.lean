import Teptris.Grammar.Strings
import Teptris.Parse.State

/-!
# Keys by the grammar

`keys.c` reads the dotted keys of the grammar, as the list of their parts.
-/

namespace Teptris

open Loop

section Keys

variable {r q t k w w' : Bytes} {ks : List Bytes} {maxDepth : ℕ} {path : KeyPath}

lemma isKeyByte_eq : Toml.isKeyByte = isBareKey := rfl

/-- A key is followed by neither a byte of a bare key nor white space nor a dot. -/
def EndsPath (q : Bytes) : Prop :=
  ∀ c ∈ q.head?, isBareKey c = false ∧ isWs c = false ∧ c ≠ Ch.dot

/-- What is read as a part of a path is a key. -/
lemma keyPart_sound (h : keyPart r = .ok (k, q)) : ∃ t, r = t ++ q ∧ Toml.IsKey t k := by
  obtain _ | ⟨c, cs⟩ := r
  · cases h
  rw [keyPart] at h
  split_ifs at h with hquote hbare
  · obtain ⟨t, ht, hquoted⟩ := (quotedKey_iff (by simpa using hquote)).mp h
    exact ⟨t, ht, .quoted hquoted⟩
  · obtain ⟨rfl, rfl⟩ := Prod.mk.inj (Except.ok.inj h)
    refine ⟨_, List.takeWhile_append_dropWhile.symm, .bare (fun d hd => ?_) ?_⟩
    · exact List.mem_takeWhile_imp (p := isBareKey) hd
    · rw [List.takeWhile_cons_of_pos hbare]
      exact List.cons_ne_nil _ _
  · exact absurd h failAt_ne_ok

/-- A key is read as a part of a path, up to what is no byte of a bare key. -/
lemma keyPart_complete (ht : Toml.IsKey t k) (hq : ∀ c ∈ q.head?, isBareKey c = false) :
    keyPart (t ++ q) = .ok (k, q) := by
  cases ht with
  | bare ht hne =>
    obtain ⟨c, t, rfl⟩ := List.exists_cons_of_ne_nil hne
    have hstop : q.takeWhile isBareKey = [] ∧ q.dropWhile isBareKey = q := by
      cases q with
      | nil => exact ⟨rfl, rfl⟩
      | cons d q => simp [hq d rfl]
    have hall : ∀ d ∈ c :: t, isBareKey d = true := ht
    rw [List.cons_append, keyPart_bare _ (hall c (by simp)), ← List.cons_append,
      List.takeWhile_append_of_pos hall, List.dropWhile_append_of_pos hall, hstop.1, hstop.2,
      List.append_nil]
  | quoted h =>
    obtain @⟨basic, t, s, hchars⟩ := h
    have hhead : (Toml.quote basic :: (t ++ [Toml.quote basic]) ++ q).head? = some Ch.dquote ∨
        (Toml.quote basic :: (t ++ [Toml.quote basic]) ++ q).head? = some Ch.squote := by
      cases basic
      · exact .inr rfl
      · exact .inl rfl
    have hread := (quotedKey_iff (s := k) (q := q) hhead).mpr ⟨_, rfl, .mk hchars⟩
    rw [List.cons_append, keyPart, if_pos (by cases basic <;> decide)]
    exact hread

lemma isKey_head (ht : Toml.IsKey t k) : ∃ c t', t = c :: t' ∧ isWs c = false ∧ c ≠ Ch.lf ∧
    c ≠ Ch.cr ∧ c ≠ Ch.hash ∧ c ≠ Ch.lbrack ∧ c ≠ Ch.rbrace := by
  cases ht with
  | bare ht hne =>
    obtain ⟨c, t, rfl⟩ := List.exists_cons_of_ne_nil hne
    have hbytes : ∀ c : UInt8, isBareKey c = true → isWs c = false ∧ c ≠ Ch.lf ∧ c ≠ Ch.cr ∧
        c ≠ Ch.hash ∧ c ≠ Ch.lbrack ∧ c ≠ Ch.rbrace := by
      intro c hc
      refine ⟨isWs_of_isBareKey hc, ?_, ?_, ?_, ?_, ?_⟩
      all_goals
        rintro rfl
        exact absurd hc (by decide)
    exact ⟨c, t, rfl, hbytes c (ht c (by simp))⟩
  | quoted h =>
    obtain @⟨basic, t, s, -⟩ := h
    exact ⟨_, _, rfl, by cases basic <;> decide⟩

lemma isPath_head (ht : Toml.IsPath t ks) : ∃ c t', t = c :: t' ∧ isWs c = false ∧ c ≠ Ch.lf ∧
    c ≠ Ch.cr ∧ c ≠ Ch.hash ∧ c ≠ Ch.lbrack ∧ c ≠ Ch.rbrace := by
  cases ht with
  | one h => exact isKey_head h
  | dotted h =>
    obtain ⟨c, t', rfl, hc⟩ := isKey_head h
    exact ⟨c, _, rfl, hc⟩

/-- One part of a path, by the grammar. -/
lemma keyPathTurn_part {acc : List Key} (hw : Toml.IsWs w) (ht : Toml.IsKey t k)
    (hq : ∀ c ∈ q.head?, isBareKey c = false) (hlen : acc.length + 1 ≤ maxDepth) :
    keyPathTurn maxDepth (acc, w ++ (t ++ q)) =
      if (skipWs q).head? = some Ch.dot then
        .ok (.next (acc ++ [Key.ofBytes k], (skipWs q).drop 1))
      else .ok (.stop (⟨acc, Key.ofBytes k⟩, skipWs q)) := by
  obtain ⟨c, t', hcons, hc, -⟩ := isKey_head ht
  have hskip : skipWs (w ++ (t ++ q)) = t ++ q := by
    rw [skipWs_append hw]
    refine skipWs_self fun d hd => ?_
    rw [hcons] at hd
    obtain rfl := Option.some.inj hd
    exact hc
  rw [keyPathTurn]
  dsimp only
  rw [hskip, keyPart_complete ht hq]
  dsimp only
  rw [if_neg (not_lt.mpr hlen)]

/-- A path is read behind the parts read so far. -/
lemma keyPathLoop_complete (ht : Toml.IsPath t ks) (hw : Toml.IsWs w) (hw' : Toml.IsWs w')
    (hq : EndsPath q) {acc : List Key} (hlen : acc.length + ks.length ≤ maxDepth)
    (hpath : path.parts.map Key.bytes = acc.map Key.bytes ++ ks) :
    loop (keyPathTurn maxDepth) Diag.stuck (fun s => s.2.length)
      (acc, w ++ (t ++ (w' ++ q))) = .ok (path, q) := by
  have hends : ∀ {w u : Bytes}, Toml.IsWs w → (∀ c ∈ u.head?, isBareKey c = false) →
      ∀ c ∈ (w ++ u).head?, isBareKey c = false := by
    intro w u hw hu c hc
    cases w with
    | nil => exact hu c hc
    | cons d w =>
      obtain rfl := Option.some.inj hc
      exact Bool.eq_false_iff.mpr fun hbare =>
        absurd (hw d (by simp)) (by simp [isWs_of_isBareKey hbare])
  have hstop : skipWs (w' ++ q) = q := by
    rw [skipWs_append hw']
    exact skipWs_self fun c hc => (hq c hc).2.1
  have hbytes : ∀ {k l : List Key}, k.map Key.bytes = l.map Key.bytes → k = l :=
    fun h => List.map_injective_iff.mpr (fun _ _ => Key.ext) h
  induction ht generalizing w acc with
  | @one t k h =>
    have hturn := keyPathTurn_part hw h (hends hw' fun c hc => (hq c hc).1) hlen
    have hdot : q.head? ≠ some Ch.dot := fun hdot => (hq _ hdot).2.2 rfl
    rw [hstop, if_neg hdot] at hturn
    obtain rfl : path = ⟨acc, Key.ofBytes k⟩ := by
      obtain ⟨parents, last⟩ := path
      obtain ⟨hparents, hlast⟩ : parents.map Key.bytes = acc.map Key.bytes ∧ last.bytes = k := by
        simpa [KeyPath.parts] using hpath
      rw [hbytes hparents, ← hlast, Key.ofBytes_self]
    exact loop_stop hturn
  | @dotted t k u u' v ks h hu hu' _ ih =>
    have hdot : ∀ c ∈ (Ch.dot :: (u' ++ (v ++ (w' ++ q)))).head?, isBareKey c = false := by
      intro c hc
      obtain rfl := Option.some.inj hc
      rfl
    have hlen' : acc.length + 1 + ks.length ≤ maxDepth := by
      rw [List.length_cons] at hlen
      omega
    have hturn := keyPathTurn_part hw h (hends hu hdot) (show acc.length + 1 ≤ maxDepth by omega)
    rw [skipWs_append hu, skipWs_cons _ (by decide), List.head?_cons, if_pos rfl,
      List.drop_succ_cons, List.drop_zero] at hturn
    have hrest := @ih u' hu' (acc ++ [Key.ofBytes k]) (by simpa using hlen') (by simpa using hpath)
    rw [← hrest, ← loop_next (keyPath_shrinks maxDepth) hturn]
    simp only [List.append_assoc, List.cons_append]

/-- A path is read with the white space around it. -/
lemma parseKeyPath_complete (ht : Toml.IsPath t (path.parts.map Key.bytes)) (hw : Toml.IsWs w)
    (hw' : Toml.IsWs w') (hq : EndsPath q) (hlen : path.count ≤ maxDepth) :
    parseKeyPath maxDepth (w ++ (t ++ (w' ++ q))) = .ok (path, q) :=
  keyPathLoop_complete ht hw hw' hq (by simpa using hlen) rfl

/-- What is read as a path is one, with white space around it. -/
lemma parseKeyPath_sound (h : parseKeyPath maxDepth r = .ok (path, q)) :
    ∃ w t w', Toml.IsWs w ∧ Toml.IsWs w' ∧ Toml.IsPath t (path.parts.map Key.bytes) ∧
      r = w ++ (t ++ (w' ++ q)) := by
  suffices hloop : ∃ w t w' ks, Toml.IsWs w ∧ Toml.IsWs w' ∧ Toml.IsPath t ks ∧
      r = w ++ (t ++ (w' ++ q)) ∧ path.parts.map Key.bytes = ks by
    obtain ⟨w, t, w', ks, hw, hw', ht, hr, rfl⟩ := hloop
    exact ⟨w, t, w', hw, hw', ht, hr⟩
  refine loop_rec (keyPath_shrinks maxDepth) (P := fun s x => x = .ok (path, q) →
    ∃ w t w' ks, Toml.IsWs w ∧ Toml.IsWs w' ∧ Toml.IsPath t ks ∧ s.2 = w ++ (t ++ (w' ++ q)) ∧
      path.parts.map Key.bytes = s.1.map Key.bytes ++ ks) ?_ ?_ ?_ ([], r) h
  · intro s e _ hx
    cases hx
  · intro s x hturn hx
    obtain rfl := Except.ok.inj hx
    rw [keyPathTurn] at hturn
    split at hturn
    · cases hturn
    next key p hpart =>
    dsimp only at hturn
    split_ifs at hturn with hdeep hdot
    · exact absurd hturn failAt_ne_ok
    · cases hturn
    obtain ⟨rfl, rfl⟩ := Prod.mk.inj (Turn.stop.inj (Except.ok.inj hturn))
    obtain ⟨w, hsplit, hw⟩ := skipWs_split s.2
    obtain ⟨t, ht, hkey⟩ := keyPart_sound hpart
    obtain ⟨w', hsplit', hw'⟩ := skipWs_split p
    exact ⟨w, t, w', [key], hw, hw', .one hkey, by rw [← hsplit', ← ht, ← hsplit],
      by simp [KeyPath.parts]⟩
  · intro s s' x hturn ih hx
    obtain ⟨u, v, w', ks, hu, hw', hv, hs', hpath⟩ := ih hx
    rw [keyPathTurn] at hturn
    split at hturn
    · cases hturn
    next key p hpart =>
    dsimp only at hturn
    split_ifs at hturn with hdeep hdot
    · exact absurd hturn failAt_ne_ok
    · obtain rfl := Turn.next.inj (Except.ok.inj hturn)
      obtain ⟨w, hsplit, hw⟩ := skipWs_split s.2
      obtain ⟨t, ht, hkey⟩ := keyPart_sound hpart
      obtain ⟨z, hsplit', hz⟩ := skipWs_split p
      obtain ⟨rest, hrest⟩ := List.head?_eq_some_iff.mp hdot
      rw [hrest, List.drop_succ_cons, List.drop_zero] at hs'
      dsimp only at hs'
      refine ⟨w, _, w', key :: ks, hw, hw', .dotted hkey hz hu hv, ?_, by simpa using hpath⟩
      calc s.2 = w ++ skipWs s.2 := hsplit
        _ = w ++ (t ++ (z ++ skipWs p)) := by rw [ht, ← hsplit']
        _ = w ++ (t ++ (z ++ Ch.dot :: (u ++ (v ++ (w' ++ q))))) := by rw [hrest, hs']
        _ = _ := by simp only [List.append_assoc, List.cons_append]
    · cases hturn

/-- In front of what ends a path, a text is read as a path of at most `max_depth` parts exactly
where it is a dotted key of the grammar with these parts, white space around it aside. -/
theorem key_grammar {w q : Bytes} (hq : EndsPath q) (maxDepth : ℕ) (path : KeyPath) :
    parseKeyPath maxDepth (w ++ q) = .ok (path, q) ↔ path.count ≤ maxDepth ∧
      ∃ w₁ t w₂, Toml.IsWs w₁ ∧ Toml.IsWs w₂ ∧ Toml.IsPath t (path.parts.map Key.bytes) ∧
        w = w₁ ++ (t ++ w₂) := by
  constructor
  · intro h
    obtain ⟨w₁, t, w₂, hw₁, hw₂, ht, hsplit⟩ := parseKeyPath_sound h
    refine ⟨(parseKeyPath_spec h).2.2, w₁, t, w₂, hw₁, hw₂, ht, ?_⟩
    rw [← List.append_assoc t, ← List.append_assoc w₁] at hsplit
    exact List.append_cancel_right hsplit
  · rintro ⟨hlen, w₁, t, w₂, hw₁, hw₂, ht, rfl⟩
    rw [List.append_assoc, List.append_assoc]
    exact parseKeyPath_complete ht hw₁ hw₂ hq hlen

/-- `a . b` in front of an equals sign. -/
theorem key_grammar_dotted :
    parseKeyPath 512 ([0x61, Ch.sp, Ch.dot, Ch.sp, 0x62] ++ [Ch.eq]) =
        .ok (⟨[Key.ofBytes [0x61]], Key.ofBytes [0x62]⟩, [Ch.eq]) ↔
      2 ≤ 512 ∧ ∃ w₁ t w₂, Toml.IsWs w₁ ∧ Toml.IsWs w₂ ∧ Toml.IsPath t [[0x61], [0x62]] ∧
        [0x61, Ch.sp, Ch.dot, Ch.sp, 0x62] = w₁ ++ (t ++ w₂) :=
  key_grammar (fun c hc => by
    obtain rfl := Option.some.inj hc
    decide) 512 ⟨[Key.ofBytes [0x61]], Key.ofBytes [0x62]⟩

end Keys

end Teptris
