import Teptris.Emit.Digits
import Teptris.Parse.FastPath
import Teptris.Parse.State

/-!
# Strings and keys read back

`emit_string_value` and `key_to_buf` against the scanners of `scalars.c`.  A body between quotes
is read back byte by byte where every byte is written as the scanner expects it (`IsWritten`); a
key with the byte DEL is the one text that is not.
-/

namespace Teptris

open Loop

/-! ## Bodies -/

section Body

variable (quote : UInt8) (escape : Option (Bytes → Except Diag (Bytes × Bytes)))

/-- The text that stands for one byte between quotes. -/
inductive IsWritten (c : UInt8) : Bytes → Prop
  /-- The byte itself. -/
  | plain (hquote : c ≠ quote) (hslash : escape.isSome = true → c ≠ Ch.bslash)
      (hcontrol : isControl c = false) : IsWritten c [c]
  /-- An escape. -/
  | escaped {f : Bytes → Except Diag (Bytes × Bytes)} {t : Bytes} (hescape : escape = some f)
      (h : ∀ r, f (t ++ r) = .ok ([c], r)) : IsWritten c (Ch.bslash :: t)

end Body

variable {quote : UInt8} {escape : Option (Bytes → Except Diag (Bytes × Bytes))}

/-- One turn of a scanner reads the text of one byte. -/
lemma scanTurn_written (hquote : quote ≠ Ch.bslash) {c : UInt8} {t : Bytes}
    (h : IsWritten quote escape c t) (out r : Bytes) :
    scanTurn quote escape false (out, t ++ r) = .ok (.next (out ++ [c], r)) := by
  cases h with
  | plain hq hslash hcontrol =>
    have hlf : c ≠ Ch.lf := by rintro rfl; exact absurd hcontrol (by decide)
    have hcr : c ≠ Ch.cr := by rintro rfl; exact absurd hcontrol (by decide)
    have hno : ¬ (c = Ch.bslash ∧ escape.isSome = true) := fun h => hslash h.2 h.1
    simp only [scanTurn, List.singleton_append, if_neg hq, if_neg hno, if_neg hlf, if_neg hcr,
      hcontrol, Bool.false_eq_true, if_false]
  | @escaped f t hescape hf =>
    subst hescape
    simp only [scanTurn, List.cons_append, if_neg hquote.symm, Option.isSome_some, and_self,
      if_true, Option.getD_some, hf r]

/-- A body of written bytes is scanned to its closing quote. -/
lemma scan_written (hquote : quote ≠ Ch.bslash) (hq : quote < Ch.del) (hesc : EscapeOk escape)
    {text : UInt8 → Bytes} {s : Bytes} (hs : ∀ c ∈ s, IsWritten quote escape c (text c))
    (out r : Bytes) :
    loop (scanTurn quote escape false) Diag.stuck (fun s => s.2.length)
      (out, s.flatMap text ++ quote :: r) = .ok (out ++ s, r) := by
  induction s generalizing out with
  | nil => exact loop_stop (by simp [scanTurn])
  | cons c s ih =>
    have hturn := scanTurn_written hquote (hs c (by simp)) out (s.flatMap text ++ quote :: r)
    rw [List.flatMap_cons, List.append_assoc, loop_next (scan_shrinks hq hesc) hturn,
      ih fun d hd => hs d (by simp [hd])]
    simp

/-- A plain body in front of written bytes is what they stand for. -/
lemma plain_of_written (hquote : quote ≠ Ch.bslash) {text : UInt8 → Bytes} {s a q r : Bytes}
    (hs : ∀ c ∈ s, IsWritten quote escape c (text c))
    (ha : ∀ c ∈ a, c ≠ quote ∧ (escape.isSome = true → c ≠ Ch.bslash))
    (h : a ++ quote :: q = s.flatMap text ++ quote :: r) : a = s ∧ q = r := by
  induction s generalizing a with
  | nil =>
    obtain _ | ⟨d, a⟩ := a
    · exact ⟨rfl, by simpa using h⟩
    · obtain rfl : d = quote := (List.cons.inj h).1
      exact absurd rfl (ha d (by simp)).1
  | cons c s ih =>
    rw [List.flatMap_cons, List.append_assoc] at h
    have hwritten := hs c (by simp)
    generalize text c = t at h hwritten
    cases hwritten with
    | plain hq _ _ =>
      obtain _ | ⟨d, a⟩ := a
      · exact absurd (List.cons.inj h).1.symm hq
      · obtain ⟨rfl, htail⟩ := List.cons.inj h
        obtain ⟨rfl, rfl⟩ := ih (fun d hd => hs d (by simp [hd])) (fun d hd => ha d (by simp [hd]))
          htail
        exact ⟨rfl, rfl⟩
    | escaped hescape _ =>
      -- a plain body holds no backslash
      obtain _ | ⟨d, a⟩ := a
      · exact absurd (List.cons.inj h).1 hquote
      · obtain rfl : d = Ch.bslash := (List.cons.inj h).1
        exact absurd rfl ((ha _ (by simp)).2 (by rw [hescape]; rfl))

/-- A single-line body of written bytes is read back, by the lookahead or by the scanner. -/
lemma singleLineBody_written {basic : Bool} {text : UInt8 → Bytes} {s : Bytes}
    (hs : ∀ c ∈ s, IsWritten (if basic then Ch.dquote else Ch.squote)
      (if basic then some (scanEscape false) else none) c (text c)) (r : Bytes) :
    singleLineBody basic (s.flatMap text ++ (if basic then Ch.dquote else Ch.squote) :: r) =
      .ok (s, r) := by
  have hquote : (if basic then Ch.dquote else Ch.squote) ≠ Ch.bslash := by cases basic <;> decide
  rw [singleLineBody]
  split
  next content hplain =>
    obtain ⟨hsplit, hcontent⟩ := tryPlainBody_spec hplain
    have hslash : ∀ c ∈ content, c ≠ (if basic then Ch.dquote else Ch.squote) ∧
        ((if basic then some (scanEscape false) else none).isSome = true → c ≠ Ch.bslash) := by
      intro c hc
      refine ⟨(hcontent c hc).1, fun hsome => (hcontent c hc).2.2 ?_⟩
      cases basic
      · simp at hsome
      · rfl
    obtain ⟨rfl, hrest⟩ := plain_of_written hquote hs hslash hsplit.symm
    rw [hrest]
  next hplain =>
    cases basic
    · exact scan_written hquote (by decide) escapeOk_none hs [] r
    · exact scan_written hquote (by decide) (escapeOk_scanEscape false) hs [] r

/-! ## Bytes -/

/-- The digits of `%04X` are read back. -/
lemma hexVal_hexChar : ∀ d < 16, isHex (hexChar d) = true ∧ hexVal (hexChar d) = d := by decide

/-- `\u00XX` is read as the byte it was written for. -/
lemma scanEscape_unicode {c : UInt8} (h : c < 0x80) (r : Bytes) :
    scanEscape false
      (0x75 :: Ch.zero :: Ch.zero :: hexChar (c.toNat / 16) :: hexChar (c.toNat % 16) :: r) =
      .ok ([c], r) := by
  have hlt : c.toNat < 128 := by simpa [UInt8.lt_iff_toNat_lt] using h
  obtain ⟨hhi, hhival⟩ := hexVal_hexChar (c.toNat / 16) (by omega)
  obtain ⟨hlo, hloval⟩ := hexVal_hexChar (c.toNat % 16) (by omega)
  have hzero : isHex Ch.zero = true ∧ hexVal Ch.zero = 0 := by decide
  have hcp : (((0 * 16 + 0) * 16 + 0) * 16 + c.toNat / 16) * 16 + c.toNat % 16 = c.toNat := by
    omega
  have hread : readHex 4 0
      (Ch.zero :: Ch.zero :: hexChar (c.toNat / 16) :: hexChar (c.toNat % 16) :: r) =
      .ok (c.toNat, r) := by
    simp only [readHex, hzero.1, hzero.2, hhi, hlo, hhival, hloval, if_true, hcp]
  have hput : utf8Put c.toNat = [c] := by
    rw [utf8Put, if_pos hlt, UInt8.ofNat_toNat]
  have hshort : shortEscape 0x75 = none := by decide
  have hscalar : ¬ ((0xD800 ≤ c.toNat ∧ c.toNat ≤ 0xDFFF) ∨ 0x10FFFF < c.toNat) := by omega
  simp only [scanEscape, Bool.false_and, Bool.false_eq_true, if_false, hshort,
    show (0x75 : UInt8) ≠ 0x78 by decide, if_true, unicodeEscape, hread, if_neg hscalar, hput]

/-- `\u00XX` stands for its byte. -/
lemma isWritten_unicode {c : UInt8} (h : c < 0x80) :
    IsWritten Ch.dquote (some (scanEscape false)) c (unicodeText c) :=
  .escaped rfl (scanEscape_unicode h)

/-- A byte that needs no escape in a basic string. -/
lemma isWritten_plain {c : UInt8} (hquote : c ≠ Ch.dquote) (hslash : c ≠ Ch.bslash)
    (hcontrol : ¬ c < 0x20) (hdel : c ≠ Ch.del) :
    IsWritten Ch.dquote (some (scanEscape false)) c [c] := by
  refine .plain hquote (fun _ => hslash) ?_
  simp [isControl, hcontrol, hdel]

/-- Every byte of `emit_basic_bytes` is read back. -/
lemma isWritten_basicByte (c : UInt8) :
    IsWritten Ch.dquote (some (scanEscape false)) c (basicByte c) := by
  rw [basicByte]
  split_ifs with hquote hslash hbs htab hlf hff hcr hcontrol
  · subst hquote
    exact .escaped rfl fun _ => rfl
  · subst hslash
    exact .escaped rfl fun _ => rfl
  · subst hbs
    exact .escaped rfl fun _ => rfl
  · subst htab
    exact .escaped rfl fun _ => rfl
  · subst hlf
    exact .escaped rfl fun _ => rfl
  · subst hff
    exact .escaped rfl fun _ => rfl
  · subst hcr
    exact .escaped rfl fun _ => rfl
  · refine isWritten_unicode ?_
    rcases hcontrol with hlow | rfl
    · exact UInt8.lt_trans hlow (by decide)
    · decide
  · obtain ⟨hlow, hdel⟩ := not_or.mp hcontrol
    exact isWritten_plain hquote hslash hlow hdel

/-- `key_to_buf` leaves DEL as it is. -/
lemma del_mem_emitKey {key : Bytes} (h : Ch.del ∈ key) : Ch.del ∈ emitKey key := by
  rw [emitKey]
  split_ifs
  · exact h
  · simp [literalText, h]
  · have hbody : Ch.del ∈ key.flatMap keyByte :=
      List.mem_flatMap.mpr ⟨Ch.del, h, by decide⟩
    simp [hbody]

/-- Every byte of a quoted key but DEL is read back. -/
lemma isWritten_keyByte {c : UInt8} (hdel : c ≠ Ch.del) :
    IsWritten Ch.dquote (some (scanEscape false)) c (keyByte c) := by
  rw [keyByte]
  split_ifs with hquote hslash hcontrol
  · subst hquote
    exact .escaped rfl fun _ => rfl
  · subst hslash
    exact .escaped rfl fun _ => rfl
  · exact isWritten_unicode (UInt8.lt_trans hcontrol (by decide))
  · exact isWritten_plain hquote hslash hcontrol hdel

/-- A literal text between single quotes is read back. -/
lemma singleLineBody_literal {s : Bytes} (h : isLiteralText s = true) (r : Bytes) :
    singleLineBody false (s ++ Ch.squote :: r) = .ok (s, r) := by
  have hwritten : ∀ c ∈ s, IsWritten Ch.squote none c [c] := by
    intro c hc
    have hbyte := List.all_eq_true.mp h c hc
    simp only [Bool.and_eq_true, bne_iff_ne, Bool.not_eq_true'] at hbyte
    exact .plain hbyte.1 (by simp) hbyte.2
  simpa using @singleLineBody_written false (fun c => [c]) s hwritten r

/-- A text between double quotes is read back. -/
lemma singleLineBody_basic {text : UInt8 → Bytes} {s : Bytes}
    (h : ∀ c ∈ s, IsWritten Ch.dquote (some (scanEscape false)) c (text c)) (r : Bytes) :
    singleLineBody true (s.flatMap text ++ Ch.dquote :: r) = .ok (s, r) :=
  @singleLineBody_written true text s h r

/-! ## Strings and keys -/

/-- No text that is written starts with its own closing quote. -/
lemma IsWritten.head_ne (hquote : quote ≠ Ch.bslash) {c : UInt8} {t : Bytes}
    (h : IsWritten quote escape c t) (r : Bytes) : (t ++ r).head? ≠ some quote := by
  cases h with
  | plain hq _ _ => simpa using hq
  | escaped _ _ => simpa using hquote.symm

/-- What `parse_string` makes of a single-line body. -/
lemma parseString_of_body {r r' s : Bytes} (hquote : quote = Ch.dquote ∨ quote = Ch.squote)
    (hml : r.head? = some quote → r[1]? ≠ some quote)
    (h : singleLineBody (quote = Ch.dquote) r = .ok (s, r')) :
    parseString (quote :: r) = .ok (.string s, r') := by
  have hnot : ¬ (r.head? = some quote ∧ r[1]? = some quote) := fun hc => hml hc.1 hc.2
  have hsecond : (quote :: r)[1]? = r.head? := by cases r <;> rfl
  have hthird : (quote :: r)[2]? = r[1]? := by cases r <;> rfl
  have hfalse : ((quote :: r).head?.isSome && (quote :: r)[1]? = (quote :: r).head? &&
      (quote :: r)[2]? = (quote :: r).head?) = false := by
    rw [hsecond, hthird, List.head?_cons, Bool.and_eq_false_iff, Bool.and_eq_false_iff,
      decide_eq_false_iff_not, decide_eq_false_iff_not]
    tauto
  have hbasic : decide ((quote :: r).head? = some Ch.dquote) = decide (quote = Ch.dquote) := by
    simp
  simp only [parseString, hfalse, Bool.false_eq_true, if_false, List.drop_succ_cons, List.drop_zero,
    hbasic, h]

/-- The text of a string value is read as that string. -/
lemma parseString_emit (s : Bytes) {r : Bytes} (hr : Ends r) :
    parseString (emitStringValue s ++ r) = .ok (.string s, r) := by
  have hsq : r.head? ≠ some Ch.squote := hr.head_ne (by decide)
  have hdq : r.head? ≠ some Ch.dquote := hr.head_ne (by decide)
  rw [emitStringValue]
  split_ifs with hlit
  · have htext : literalText s ++ r = Ch.squote :: (s ++ Ch.squote :: r) := by simp [literalText]
    rw [htext]
    refine parseString_of_body (.inr rfl) (fun hhead => ?_) (singleLineBody_literal hlit r)
    cases s with
    | nil => simpa [List.head?_eq_getElem?] using hsq
    | cons c s =>
      have hbyte := List.all_eq_true.mp hlit c (by simp)
      obtain rfl : c = Ch.squote := by simpa using hhead
      exact absurd hbyte (by decide)
  · have htext : emitBasicBytes s ++ r = Ch.dquote :: (s.flatMap basicByte ++ Ch.dquote :: r) := by
      simp [emitBasicBytes]
    rw [htext]
    refine parseString_of_body (.inl rfl) (fun hhead => ?_)
      (singleLineBody_basic (fun c _ => isWritten_basicByte c) r)
    cases s with
    | nil => simpa [List.head?_eq_getElem?] using hdq
    | cons c s =>
      rw [List.flatMap_cons, List.append_assoc] at hhead
      exact absurd hhead ((isWritten_basicByte c).head_ne (by decide) _)

/-- A key without DEL is read as one part of a key path. -/
lemma keyPart_emit {key : Bytes} (hdel : Ch.del ∉ key) {r : Bytes}
    (hr : ∀ c ∈ r.head?, isBareKey c = false) :
    keyPart (emitKey key ++ r) = .ok (key, r) := by
  rw [emitKey]
  split_ifs with hbare hlit
  · obtain ⟨hne, hall⟩ := hbare
    obtain ⟨c, cs, rfl⟩ := List.exists_cons_of_ne_nil hne
    have hall' := List.all_eq_true.mp hall
    have hpart := keyPart_bare (cs ++ r) (hall' c (by simp))
    obtain ⟨htake, hdrop⟩ := Runs.cut hall' hr
    rw [List.cons_append, hpart, ← List.cons_append, htake, hdrop]
  · have hbody := singleLineBody_literal hlit r
    have htext : literalText key ++ r = Ch.squote :: (key ++ Ch.squote :: r) := by
      simp [literalText]
    rw [htext, keyPart, if_pos (.inr rfl), quotedKey]
    exact hbody
  · have hbody := @singleLineBody_basic keyByte key
      (fun c hc => isWritten_keyByte fun h => hdel (h ▸ hc)) r
    have htext : Ch.dquote :: key.flatMap keyByte ++ [Ch.dquote] ++ r =
        Ch.dquote :: (key.flatMap keyByte ++ Ch.dquote :: r) := by simp
    rw [htext, keyPart, if_pos (.inl rfl), quotedKey]
    exact hbody

end Teptris
