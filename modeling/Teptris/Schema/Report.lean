import Teptris.Emit.Json
import Teptris.Library.Json
import Teptris.Parse.Run
import Teptris.Schema.Actions

/-!
# The report as JSON

When the report of a walk is a JSON text, and when the diagnostic of a failed compilation is one:
both copy messages in between quotes and escape less than a JSON string needs.
-/

namespace Teptris

/-! ## The errors of a walk -/

/-- An error that is reported: the context in front of it, and its message. -/
structure Err where
  /-- The context. -/
  ctx : Vctx
  /-- The formatted message. -/
  msg : Bytes

/-- The error that an action reports, if it does. -/
def Act.reported : Act → Vctx → List Err
  | .verr msg, c => if 0 < c.mute ∨ maxErrors ≤ c.nErrors then [] else [⟨c, msg⟩]
  | _, _ => []

/-- The errors that actions report. -/
def reported : List Act → Vctx → List Err
  | [], _ => []
  | a :: acts, c => a.reported c ++ reported acts (a.run c)

/-- The error objects, joined by commas. -/
def joined (es : List Err) : Bytes :=
  [Ch.comma].intercalate (es.map fun e => e.ctx.errorText e.msg)

lemma joined_nil : joined [] = [] := rfl

lemma joined_cons_cons (e e' : Err) (es : List Err) :
    joined (e :: e' :: es) = e.ctx.errorText e.msg ++ Ch.comma :: joined (e' :: es) := by
  simp [joined, List.intercalate]

lemma joined_append_one (es : List Err) (e : Err) :
    joined (es ++ [e]) =
      joined es ++ (if 0 < es.length then [Ch.comma] else []) ++ e.ctx.errorText e.msg := by
  induction es with
  | nil => simp [joined, List.intercalate]
  | cons e₀ es ih =>
    cases es with
    | nil => simp [joined, List.intercalate]
    | cons e₁ es =>
      rw [List.cons_append, List.cons_append, joined_cons_cons, ← List.cons_append, ih,
        joined_cons_cons]
      simp

/-- The buffer of a context holds the errors. -/
structure Vctx.Wrote (c : Vctx) (es : List Err) : Prop where
  /-- Their objects. -/
  buf : c.buf = joined es
  /-- Their number. -/
  nErrors : c.nErrors = es.length

lemma Vctx.Wrote.new : Vctx.new.Wrote [] := ⟨rfl, rfl⟩

/-- A context with the same report holds the same errors. -/
lemma Vctx.Wrote.same {c c' : Vctx} {es : List Err} (h : c.Wrote es) (hsame : c.SameReport c') :
    c'.Wrote es :=
  ⟨hsame.buf.trans h.buf, hsame.nErrors.trans h.nErrors⟩

/-- Where a context is muted, and how often, and that its report is that of another. -/
structure Vctx.Muted (c c' : Vctx) : Prop where
  /-- The same report. -/
  same : c.SameReport c'
  /-- As many trials in flight. -/
  mute : c'.mute = c.mute

lemma Vctx.Muted.refl (c : Vctx) : c.Muted c := ⟨.refl c, rfl⟩

lemma Vctx.Muted.trans {c c' c'' : Vctx} (h : c.Muted c') (h' : c'.Muted c'') : c.Muted c'' :=
  ⟨h.same.trans h'.same, h'.mute.trans h.mute⟩

mutual

/-- A muted action reports nothing, and only `verr` reports at all. -/
lemma Act.muted (a : Act) (c : Vctx) (h : 0 < c.mute ∨ ∀ msg, a ≠ .verr msg) :
    c.Muted (a.run c) := by
  cases a with
  | pathPush seg =>
    rw [Act.run, Vctx.pathPush]
    split_ifs
    all_goals exact ⟨⟨rfl, rfl, rfl⟩, rfl⟩
  | pathPushIdx idx =>
    rw [Act.run, Vctx.pathPushIdx]
    split_ifs
    all_goals exact ⟨⟨rfl, rfl, rfl⟩, rfl⟩
  | spush seg =>
    rw [Act.run, Vctx.spush]
    split_ifs
    all_goals exact ⟨⟨rfl, rfl, rfl⟩, rfl⟩
  | pathPop | spop => exact ⟨⟨rfl, rfl, rfl⟩, rfl⟩
  | verr msg =>
    have hmute : 0 < c.mute := h.resolve_right fun hno => hno msg rfl
    rw [Act.run, Vctx.verr]
    dsimp only
    rw [if_pos hmute]
    exact ⟨⟨rfl, rfl, rfl⟩, rfl⟩
  | trial acts =>
    have hwalk := runActs_muted acts { c with mute := c.mute + 1 } (Nat.succ_pos _)
    rw [Act.run, Vctx.trial]
    generalize runActs acts { c with mute := c.mute + 1 } = c' at hwalk
    have hbuf : c'.buf.take c.buf.length = c.buf := by rw [hwalk.same.buf, List.take_length]
    have hmute : c'.mute - 1 = c.mute := by
      rw [hwalk.mute]
      rfl
    dsimp only
    split_ifs
    · exact ⟨⟨hwalk.same.buf, hwalk.same.nErrors, hwalk.same.truncated⟩, hmute⟩
    · exact ⟨⟨hbuf, hwalk.same.nErrors, hwalk.same.truncated⟩, hmute⟩
  | trialFree acts =>
    have hwalk := runActs_muted acts { c with mute := c.mute + 1 } (Nat.succ_pos _)
    rw [Act.run, Vctx.trialFree]
    generalize runActs acts { c with mute := c.mute + 1 } = c' at hwalk
    have hbuf : c'.buf.take c.buf.length = c.buf := by rw [hwalk.same.buf, List.take_length]
    have hmute : c'.mute - 1 = c.mute := by
      rw [hwalk.mute]
      rfl
    exact ⟨⟨hbuf, hwalk.same.nErrors, hwalk.same.truncated⟩, hmute⟩

/-- Muted actions report nothing. -/
lemma runActs_muted (acts : List Act) (c : Vctx) (h : 0 < c.mute) : c.Muted (runActs acts c) := by
  cases acts with
  | nil => exact .refl c
  | cons a acts =>
    have hone := a.muted c (Or.inl h)
    exact hone.trans (runActs_muted acts (a.run c) (by rw [hone.mute]; exact h))

end

/-- One action appends the error it reports. -/
lemma Act.wrote (a : Act) {c : Vctx} {es : List Err} (h : c.Wrote es) :
    (a.run c).Wrote (es ++ a.reported c) := by
  by_cases hverr : ∃ msg, a = .verr msg
  · obtain ⟨msg, rfl⟩ := hverr
    rw [Act.run, Act.reported, Vctx.verr]
    dsimp only
    by_cases hmute : 0 < c.mute
    · rw [if_pos (Or.inl hmute), if_pos hmute, List.append_nil]
      exact ⟨h.buf, h.nErrors⟩
    by_cases hmax : maxErrors ≤ c.nErrors
    · rw [if_pos (Or.inr hmax), if_neg hmute, if_pos hmax, List.append_nil]
      exact ⟨h.buf, h.nErrors⟩
    have hloud : ¬ (0 < c.mute ∨ maxErrors ≤ c.nErrors) := not_or.mpr ⟨hmute, hmax⟩
    have htext : Vctx.errorText { c with pings := c.pings + 1 } msg = c.errorText msg := rfl
    rw [if_neg hloud, if_neg hmute, if_neg hmax, htext]
    constructor
    · rw [joined_append_one, ← h.buf, ← h.nErrors]
    · rw [List.length_append, ← h.nErrors]
      rfl
  · have hquiet := a.muted c (Or.inr fun msg heq => hverr ⟨msg, heq⟩)
    have hnone : a.reported c = [] := by
      cases a with
      | verr msg => exact absurd ⟨msg, rfl⟩ hverr
      | _ => rfl
    rw [hnone, List.append_nil]
    exact h.same hquiet.same

/-- Actions append the errors they report. -/
lemma runActs_wrote (acts : List Act) {c : Vctx} {es : List Err} (h : c.Wrote es) :
    (runActs acts c).Wrote (es ++ reported acts c) := by
  induction acts generalizing c es with
  | nil => simpa [runActs, reported] using h
  | cons a acts ih =>
    have hrest := ih (a.wrote h)
    rwa [List.append_assoc] at hrest

/-! ## The texts of an error -/

/-- The three texts of an error can stand in a JSON string as they are written. -/
structure Err.Clean (e : Err) : Prop where
  /-- The segments of the document path in use. -/
  path : ∀ seg ∈ e.ctx.segs.take e.ctx.depth, Utf8.Valid seg
  /-- The segments of the schema path in use, as they were cut. -/
  schemaPath : ∀ seg ∈ e.ctx.ssegs.take e.ctx.sdepth, Utf8.Valid seg
  /-- The message, as it is cut. -/
  message : Utf8.Valid (e.msg.take 255)
  /-- No byte of it is a control byte. -/
  control : ∀ b ∈ e.msg.take 255, 0x20 ≤ b

lemma hex4_hexLower : ∀ c : UInt8, c < 0x20 →
    Json.hex4 [0x30, 0x30, hexLower (c.toNat / 16), hexLower (c.toNat % 16)] = some c.toNat ∧
      Json.encode c.toNat = [c] := by
  decide +kernel

/-- Every byte of a path is written as a character that stands for it. -/
lemma isChar_jsonByte (c : UInt8) : Json.IsChar (jsonByte c) [c] := by
  rw [jsonByte]
  split_ifs with hquote hctl
  · rcases hquote with rfl | rfl
    · exact .short (by decide)
    · exact .short (by decide)
  · obtain ⟨hhex, hencode⟩ := hex4_hexLower c hctl
    have hsmall : c.toNat < 0xD800 := by
      have := c.toNat_lt
      omega
    have h := Json.IsChar.unicode hhex (.inl hsmall)
    rwa [hencode] at h
  · rw [not_or] at hquote
    exact .unescaped (UInt8.not_lt.mp hctl) hquote.1 hquote.2

lemma isChars_jsonBytes (s : Bytes) : Json.IsChars (s.flatMap jsonByte) s := by
  induction s with
  | nil => exact .nil
  | cons c cs ih => exact .cons (isChar_jsonByte c) ih

lemma jsonByte_ne_nil : ∀ c : UInt8, c < 0x80 → jsonByte c ≠ [] := by
  intro c _
  rw [jsonByte]
  split_ifs <;> simp

lemma jsonByte_ascii : ∀ c : UInt8, c < 0x80 → ∀ d ∈ jsonByte c, d < 0x80 :=
  Utf8.ascii_of_all (by decide +kernel)

lemma jsonByte_multi : ∀ c : UInt8, ¬ c < 0x80 → jsonByte c = [c] := by grind [jsonByte]

lemma valid_jsonBytes (s : Bytes) : Utf8.Valid (s.flatMap jsonByte) ↔ Utf8.Valid s :=
  Utf8.valid_flatMap_iff jsonByte_ne_nil jsonByte_ascii jsonByte_multi s

/-- A byte of a message is a character unless it is a control byte. -/
lemma isChars_messageBytes {s : Bytes} (h : ∀ b ∈ s, 0x20 ≤ b) :
    Json.IsChars (s.flatMap messageByte) s := by
  induction s with
  | nil => exact .nil
  | cons c cs ih =>
    have hchar : Json.IsChar (messageByte c) [c] := by
      rw [messageByte]
      split_ifs with hquote
      · rcases hquote with rfl | rfl
        · exact .short (by decide)
        · exact .short (by decide)
      · rw [not_or] at hquote
        exact .unescaped (h c (by simp)) hquote.1 hquote.2
    exact .cons hchar (ih fun b hb => h b (by simp [hb]))

/-- The scanner stops at a control byte of a message. -/
lemma messageBytes_scan {s : Bytes} {m : Json.Mode}
    (h : Json.Mode.inside.scan (s.flatMap messageByte) = some m) : ∀ b ∈ s, 0x20 ≤ b := by
  induction s with
  | nil => simp
  | cons c cs ih =>
    rw [List.flatMap_cons, Json.Mode.scan_append] at h
    have hstep : Json.Mode.inside.scan (messageByte c) = some .inside ∧ 0x20 ≤ c := by
      rw [messageByte] at h ⊢
      by_cases hquote : c = Ch.dquote ∨ c = Ch.bslash
      · rw [if_pos hquote]
        rcases hquote with rfl | rfl <;> decide
      · rw [if_neg hquote] at h ⊢
        rw [not_or] at hquote
        by_cases hctl : c < 0x20
        · have hstop : Json.Mode.inside.step c = none := by
            rw [Json.Mode.step, if_neg hquote.1, if_neg hquote.2, if_pos hctl]
          rw [Json.Mode.scan, hstop] at h
          cases h
        · have hctl' := UInt8.not_lt.mp hctl
          rw [Json.Mode.scan, Json.step_inside hctl' hquote.1 hquote.2]
          exact ⟨rfl, hctl'⟩
    rw [hstep.1] at h
    intro b hb
    rcases List.mem_cons.mp hb with rfl | hb
    · exact hstep.2
    · exact ih h b hb

lemma messageByte_ne_nil : ∀ c : UInt8, c < 0x80 → messageByte c ≠ [] := by
  intro c _
  rw [messageByte]
  split_ifs <;> simp

lemma messageByte_ascii : ∀ c : UInt8, c < 0x80 → ∀ d ∈ messageByte c, d < 0x80 :=
  Utf8.ascii_of_all (by decide +kernel)

lemma messageByte_multi : ∀ c : UInt8, ¬ c < 0x80 → messageByte c = [c] := by grind [messageByte]

lemma valid_messageBytes (s : Bytes) : Utf8.Valid (s.flatMap messageByte) ↔ Utf8.Valid s :=
  Utf8.valid_flatMap_iff messageByte_ne_nil messageByte_ascii messageByte_multi s

/-! ## The report -/

/-- The members of an error. -/
def errorValue (path schemaPath msg : Bytes) : Json.Value :=
  .object [(ascii "path", .string path), (ascii "schemaPath", .string schemaPath),
    (ascii "message", .string msg)]

/-- A text is a JSON array of errors. -/
def IsReport (t : Bytes) : Prop :=
  ∃ vs, Json.IsText t (.array vs) ∧ ∀ v ∈ vs, ∃ p s m, v = errorValue p s m

/-- The report of some errors. -/
def reportText (es : List Err) : Bytes := Ch.lbrack :: joined es ++ [Ch.rbrack]

/-- The document path, between its quotes. -/
def Err.pathBody (e : Err) : Bytes :=
  [Ch.dot].intercalate ((e.ctx.segs.take e.ctx.depth).map fun s => s.flatMap jsonByte)

/-- The schema path, behind its `#`. -/
def Err.schemaBody (e : Err) : Bytes :=
  (e.ctx.ssegs.take e.ctx.sdepth).flatMap fun s => 0x2F :: s.flatMap jsonByte

/-- The message, between its quotes. -/
def Err.msgBody (e : Err) : Bytes := (e.msg.take 255).flatMap messageByte

/-- The text of an error. -/
def Err.text (e : Err) : Bytes := e.ctx.errorText e.msg

/-- An error, cut where its three texts start and end. -/
lemma Err.text_eq (e : Err) : e.text =
    ascii "\x7b\"path\":\"" ++ (e.pathBody ++ Ch.dquote :: (ascii ",\"schemaPath\":\"#" ++
      (e.schemaBody ++ Ch.dquote :: (ascii ",\"message\":\"" ++
        (e.msgBody ++ Ch.dquote :: [0x7D]))))) := by
  have hopen : ascii "\x7b\"path\":\"" = ascii "\x7b\"path\":" ++ [Ch.dquote] := rfl
  have hschema : ascii ",\"schemaPath\":\"#" = ascii ",\"schemaPath\":" ++ ascii "\"#" := rfl
  have hclose : ascii "\"\x7d" = [Ch.dquote, 0x7D] := rfl
  rw [Err.text, Vctx.errorText, Vctx.pathText, Vctx.schemaPathText, hopen, hschema, hclose]
  simp [Err.pathBody, Err.schemaBody, Err.msgBody]

lemma Err.valid_text (e : Err) :
    Utf8.Valid e.text ↔
      Utf8.Valid e.pathBody ∧ Utf8.Valid e.schemaBody ∧ Utf8.Valid e.msgBody := by
  have hquote : Ch.dquote < 0x80 := by decide
  have hend : Utf8.Valid [0x7D] := Utf8.valid_of_all rfl
  rw [e.text_eq, Utf8.valid_ascii_append_iff rfl, Utf8.valid_append_cons_iff hquote,
    Utf8.valid_ascii_append_iff rfl, Utf8.valid_append_cons_iff hquote,
    Utf8.valid_ascii_append_iff rfl, Utf8.valid_append_cons_iff hquote]
  simp [hend]

/-- The paths are well formed where their segments are. -/
lemma Err.valid_bodies (e : Err) :
    Utf8.Valid e.pathBody ∧ Utf8.Valid e.schemaBody ∧ Utf8.Valid e.msgBody ↔
      (∀ seg ∈ e.ctx.segs.take e.ctx.depth, Utf8.Valid seg) ∧
        (∀ seg ∈ e.ctx.ssegs.take e.ctx.sdepth, Utf8.Valid seg) ∧
        Utf8.Valid (e.msg.take 255) := by
  have hschema : ∀ segs : List Bytes,
      Utf8.Valid (segs.flatMap fun s => 0x2F :: s.flatMap jsonByte) ↔
        ∀ seg ∈ segs, Utf8.Valid seg := by
    intro segs
    induction segs with
    | nil => simpa using Utf8.Valid.nil
    | cons s segs ih =>
      have hhead : ∀ c ∈ (segs.flatMap fun s => 0x2F :: s.flatMap jsonByte).head?,
          c < 0x80 := by
        intro c hc
        cases segs with
        | nil => simp at hc
        | cons s segs =>
          obtain rfl := Option.some.inj hc
          decide
      have hslash : Utf8.Valid (0x2F :: s.flatMap jsonByte) ↔ Utf8.Valid s := by
        rw [← valid_jsonBytes s]
        exact Utf8.valid_ascii_append_iff (a := [0x2F]) rfl
      rw [List.flatMap_cons, Utf8.valid_append_iff hhead, ih, hslash]
      simp
  have hpath : Utf8.Valid e.pathBody ↔ ∀ seg ∈ e.ctx.segs.take e.ctx.depth, Utf8.Valid seg := by
    rw [pathBody, Utf8.valid_intercalate_iff (by decide)]
    simp only [List.mem_map, forall_exists_index, and_imp, forall_apply_eq_imp_iff₂,
      valid_jsonBytes]
  rw [hpath, schemaBody, msgBody, hschema, valid_messageBytes]

/-- The paths are JSON strings, whatever their segments. -/
lemma Err.isChars_paths (e : Err) :
    (∃ s, Json.IsChars e.pathBody s) ∧ ∃ s, Json.IsChars e.schemaBody s := by
  have hschema : ∀ segs : List Bytes,
      ∃ s, Json.IsChars (segs.flatMap fun s => 0x2F :: s.flatMap jsonByte) s := by
    intro segs
    induction segs with
    | nil => exact ⟨[], .nil⟩
    | cons s segs ih =>
      obtain ⟨ss, hss⟩ := ih
      have hslash : Json.IsChars [0x2F] [0x2F] :=
        Json.isChars_of_plain (List.all_eq_true.mp (by decide))
      exact ⟨_, (hslash.append (isChars_jsonBytes s)).append hss⟩
  refine ⟨Json.IsChars.intercalate (by decide) fun t ht => ?_, hschema _⟩
  obtain ⟨s, -, rfl⟩ := List.mem_map.mp ht
  exact ⟨s, isChars_jsonBytes s⟩

/-- The scanner over an error. -/
lemma Err.text_scan (e : Err) (r : Bytes) : Json.Mode.outside.scan (e.text ++ r) =
    (Json.Mode.inside.scan e.msgBody).bind fun m => m.scan (Ch.dquote :: 0x7D :: r) := by
  obtain ⟨⟨p, hpath⟩, s, hschema⟩ := e.isChars_paths
  have hopen : Json.Mode.outside.scan (ascii "\x7b\"path\":\"") = some .inside := rfl
  have hbetween : Json.Mode.outside.scan (ascii ",\"schemaPath\":\"#") = some .inside := rfl
  have hlast : Json.Mode.outside.scan (ascii ",\"message\":\"") = some .inside := rfl
  have hquote : ∀ t, Json.Mode.inside.scan (Ch.dquote :: t) = Json.Mode.outside.scan t :=
    fun _ => rfl
  rw [e.text_eq]
  simp only [List.append_assoc, List.cons_append, List.nil_append]
  rw [Json.Mode.scan_append_of hopen, Json.Mode.scan_append_of hpath.scan, hquote,
    Json.Mode.scan_append_of hbetween, Json.Mode.scan_append_of hschema.scan, hquote,
    Json.Mode.scan_append_of hlast, Json.Mode.scan_append]

lemma joined_one (e : Err) : joined [e] = e.text := by
  simp [joined, List.intercalate, Err.text]

/-- The scanner gets past errors whose messages hold no control byte, and only past these. -/
lemma joined_scan {es : List Err} {r : Bytes} {m : Json.Mode}
    (h : Json.Mode.outside.scan (joined es ++ r) = some m) :
    ∀ e ∈ es, ∀ b ∈ e.msg.take 255, 0x20 ≤ b := by
  have hone : ∀ (e : Err) (r : Bytes), Json.Mode.outside.scan (e.text ++ r) = some m →
      (∀ b ∈ e.msg.take 255, 0x20 ≤ b) ∧ Json.Mode.outside.scan r = some m := by
    intro e r h
    rw [e.text_scan] at h
    obtain ⟨m', hm', hrest⟩ := Option.bind_eq_some_iff.mp h
    have hcontrol := messageBytes_scan hm'
    rw [Err.msgBody, (isChars_messageBytes hcontrol).scan] at hm'
    obtain rfl := Option.some.inj hm'
    exact ⟨hcontrol, hrest⟩
  induction es with
  | nil => simp
  | cons e es ih =>
    cases es with
    | nil =>
      rw [joined_one] at h
      simpa using (hone e r h).1
    | cons e' es =>
      rw [joined_cons_cons, List.append_assoc] at h
      obtain ⟨hcontrol, hrest⟩ := hone e _ h
      intro e₁ he₁
      rcases List.mem_cons.mp he₁ with rfl | he₁
      · exact hcontrol
      · exact ih hrest e₁ he₁

lemma joined_cons_text (e e' : Err) (es : List Err) :
    joined (e :: e' :: es) = e.text ++ 0x2C :: joined (e' :: es) := joined_cons_cons e e' es

/-- The errors between commas are well formed where each of them is. -/
lemma valid_joined (es : List Err) : Utf8.Valid (joined es) ↔ ∀ e ∈ es, Utf8.Valid e.text := by
  rw [joined, Utf8.valid_intercalate_iff (by decide)]
  simp [Err.text]

/-- An error whose message holds no control byte is an object with the three members. -/
lemma Err.isValue_text {e : Err} (h : ∀ b ∈ e.msg.take 255, 0x20 ≤ b) :
    ∃ p s m, Json.IsValue e.text (errorValue p s m) := by
  obtain ⟨⟨p, hpath⟩, s, hschema⟩ := e.isChars_paths
  have hsharp : Json.IsChars [0x23] [0x23] :=
    Json.isChars_of_plain (List.all_eq_true.mp (by decide))
  have hname : ∀ name : Bytes, name.all Json.isPlain = true → Json.IsChars name name :=
    fun name hall => Json.isChars_of_plain (List.all_eq_true.mp hall)
  have hmembers := Json.IsMembers.more (hname (ascii "path") rfl) (.string hpath)
    (Json.IsMembers.more (hname (ascii "schemaPath") rfl) (.string (hsharp.append hschema))
      (Json.IsMembers.single (hname (ascii "message") rfl) (.string (isChars_messageBytes h))))
  refine ⟨p, [0x23] ++ s, e.msg.take 255, ?_⟩
  have htext : e.text = 0x7B :: (0x22 :: ascii "path" ++ 0x22 :: 0x3A ::
      ((0x22 :: e.pathBody ++ [0x22]) ++ 0x2C :: (0x22 :: ascii "schemaPath" ++ 0x22 :: 0x3A ::
        ((0x22 :: ([0x23] ++ e.schemaBody) ++ [0x22]) ++ 0x2C ::
          (0x22 :: ascii "message" ++ 0x22 :: 0x3A ::
            (0x22 :: (e.msg.take 255).flatMap messageByte ++ [0x22])))))) ++ [0x7D] := by
    rw [e.text_eq]
    simp [Err.msgBody, ascii, Ch.dquote]
  rw [htext]
  exact .object hmembers

/-- Errors whose messages hold no control byte are the items of an array. -/
lemma isItems_joined {es : List Err} (hne : es ≠ [])
    (h : ∀ e ∈ es, ∀ b ∈ e.msg.take 255, 0x20 ≤ b) :
    ∃ vs, Json.IsItems (joined es) vs ∧ ∀ v ∈ vs, ∃ p s m, v = errorValue p s m := by
  induction es with
  | nil => exact absurd rfl hne
  | cons e es ih =>
    obtain ⟨p, s, m, hvalue⟩ := Err.isValue_text (h e (by simp))
    cases es with
    | nil =>
      rw [joined_one]
      refine ⟨[_], .single hvalue, fun v hv => ?_⟩
      exact ⟨p, s, m, List.mem_singleton.mp hv⟩
    | cons e' es =>
      obtain ⟨vs, hitems, hvs⟩ := ih (by simp) fun e he => h e (by simp [he])
      rw [joined_cons_text]
      refine ⟨_, .more hvalue hitems, fun v hv => ?_⟩
      rcases List.mem_cons.mp hv with rfl | hv
      · exact ⟨p, s, m, rfl⟩
      · exact hvs v hv

/-- A report is a JSON array of errors exactly where the texts of each error can stand in a JSON
string as they are written. -/
lemma isReport_iff (es : List Err) : IsReport (reportText es) ↔ ∀ e ∈ es, e.Clean := by
  have hvalid : Utf8.Valid (reportText es) ↔ ∀ e ∈ es, Utf8.Valid e.text := by
    have hclose : Utf8.Valid [] := .nil
    rw [reportText, List.cons_append]
    have hopen : Utf8.Valid (Ch.lbrack :: (joined es ++ [Ch.rbrack])) ↔
        Utf8.Valid (joined es ++ [Ch.rbrack]) :=
      Utf8.valid_ascii_append_iff (a := [Ch.lbrack]) rfl
    exact hopen.trans (by
      rw [Utf8.valid_append_cons_iff (by decide), valid_joined]
      simp [hclose])
  have hclean : ∀ e : Err, e.Clean ↔
      Utf8.Valid e.text ∧ ∀ b ∈ e.msg.take 255, 0x20 ≤ b := by
    intro e
    rw [e.valid_text, e.valid_bodies]
    exact ⟨fun h => ⟨⟨h.path, h.schemaPath, h.message⟩, h.control⟩,
      fun h => ⟨h.1.1, h.1.2.1, h.1.2.2, h.2⟩⟩
  constructor
  · rintro ⟨vs, ⟨hutf8, w, t, w', hw, hw', hvalue, htext⟩, -⟩ e he
    have hscan : Json.Mode.outside.scan (reportText es) = some .outside := by
      rw [htext, List.append_assoc, Json.Mode.scan_append_of hw.scan,
        Json.Mode.scan_append_of hvalue.scan, hw'.scan]
    have hinner : Json.Mode.outside.scan (joined es ++ [Ch.rbrack]) = some .outside := hscan
    exact (hclean e).mpr ⟨hvalid.mp hutf8 e he, joined_scan hinner e he⟩
  · intro h
    have hutf8 := hvalid.mpr fun e he => ((hclean e).mp (h e he)).1
    by_cases hne : es = []
    · subst hne
      exact ⟨[], Json.IsValue.isText hutf8 (.emptyArray Json.isWs_nil), by simp⟩
    · obtain ⟨vs, hitems, hvs⟩ := isItems_joined hne fun e he => (h e he).control
      exact ⟨vs, Json.IsValue.isText hutf8 (.array hitems), hvs⟩

end Teptris
