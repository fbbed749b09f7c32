import Mathlib.Data.Bool.AllAny
import Teptris.Emit.Scalars
import Teptris.Schema.Report

/-!
# The diagnostic of a failed compilation

`schema_compile_core`, where it wraps a message into a JSON object: only quotes are escaped.
-/

namespace Teptris

/-! ## The text -/

/-- The part of a message that is copied, from offset `o` of `quoted` on. -/
def diagCut : ℕ → Bytes → Bytes
  | _, [] => []
  | o, c :: cs =>
    if o < 286 then c :: diagCut (if c = Ch.dquote then o + 2 else o + 1) cs else []

/-- One byte of `quoted`. -/
def diagByte (c : UInt8) : Bytes := if c = Ch.dquote then [Ch.bslash, c] else [c]

/-- The diagnostic of a message, in a buffer of `size` bytes. -/
def diagnostic (size : ℕ) (msg : Bytes) : Bytes :=
  (ascii "\x7b\"error\":\"" ++ (diagCut 1 msg).flatMap diagByte ++ ascii "\"\x7d").take (size - 1)

/-- The diagnostic of a schema that was read and does not compile; `err` has 256 bytes. -/
def compileDiagnostic (msg : Bytes) : Bytes := diagnostic 320 (msg.take 255)

/-- The diagnostic of a text that is not read; `jerr` has 160 bytes. -/
def readDiagnostic (msg : Bytes) : Bytes := diagnostic 256 (msg.take 159)

/-- `jfail`. -/
def jfailText (msg : String) (pos : ℕ) : Bytes := ascii msg ++ ascii " at byte " ++ natText pos

/-- The messages of `json_read`. -/
def readMessages : List String :=
  ["incomplete \\u escape", "invalid \\u escape", "lone surrogate in \\u escape",
    "unterminated string", "control character in string", "unterminated escape",
    "invalid escape", "expected string key", "expected ':'", "expected ',' or '\x7d'",
    "expected ',' or ']'", "schema nesting too deep", "unexpected end of schema",
    "invalid number", "unexpected character", "trailing content"]

/-- A text is the JSON object of a diagnostic. -/
def IsDiagnostic (t : Bytes) : Prop := ∃ s, Json.IsText t (.object [(ascii "error", .string s)])

/-! ## What may stand in a message -/

/-- A message that a JSON string can hold once its quotes are escaped: every backslash of it
starts an escape, and no byte of it is a control byte. -/
inductive Escapes : Bytes → Prop
  /-- The empty message. -/
  | nil : Escapes []
  /-- A byte that is no backslash. -/
  | plain {c : UInt8} {cs : Bytes} (hctl : 0x20 ≤ c) (hslash : c ≠ Ch.bslash)
      (h : Escapes cs) : Escapes (c :: cs)
  /-- An escape, but not that of a quote. -/
  | escape {t s cs : Bytes} (hchar : Json.IsChar (Ch.bslash :: t) s) (hquote : Ch.dquote ∉ t)
      (h : Escapes cs) : Escapes (Ch.bslash :: t ++ cs)

/-- A text without quotes is copied. -/
lemma diagBytes_eq {t : Bytes} (h : Ch.dquote ∉ t) : t.flatMap diagByte = t := by
  have hself : ∀ c ∈ t, diagByte c = [c] := by
    intro c hc
    rw [diagByte, if_neg]
    rintro rfl
    exact h hc
  rw [List.flatMap_congr hself, List.flatMap_singleton']

/-- The copy of a message whose backslashes start escapes is a JSON string. -/
lemma Escapes.isChars {m : Bytes} (h : Escapes m) : ∃ s, Json.IsChars (m.flatMap diagByte) s := by
  induction h with
  | nil => exact ⟨[], .nil⟩
  | @plain c cs hctl hslash _ ih =>
    obtain ⟨s, hs⟩ := ih
    rw [List.flatMap_cons, diagByte]
    split_ifs with hquote
    · subst hquote
      have hshort : Json.shortEscape Ch.dquote = some Ch.dquote := rfl
      exact ⟨_, .cons (.short hshort) hs⟩
    · exact ⟨_, .cons (.unescaped hctl hquote hslash) hs⟩
  | @escape t s cs hchar hquote _ ih =>
    obtain ⟨ss, hss⟩ := ih
    have hcopy : (Ch.bslash :: t).flatMap diagByte = Ch.bslash :: t :=
      diagBytes_eq (by simpa [Ch.dquote, Ch.bslash] using hquote)
    rw [List.flatMap_append, hcopy]
    exact ⟨_, .cons hchar hss⟩

/-- A byte of the copy that is no backslash is a byte of the message. -/
lemma exists_of_copy_plain {m r : Bytes} {c : UInt8} (hc : c ≠ Ch.bslash)
    (h : m.flatMap diagByte = c :: r) :
    ∃ m', m = c :: m' ∧ c ≠ Ch.dquote ∧ m'.flatMap diagByte = r := by
  cases m with
  | nil => simp at h
  | cons d m =>
    rw [List.flatMap_cons, diagByte] at h
    split_ifs at h with hquote
    · obtain ⟨rfl, -⟩ := List.cons.inj h
      exact absurd rfl hc
    · obtain ⟨rfl, htail⟩ := List.cons.inj h
      exact ⟨m, rfl, hquote, htail⟩

/-- The same for some bytes. -/
lemma exists_of_copy {m t r : Bytes} (ht : ∀ c ∈ t, c ≠ Ch.bslash)
    (h : m.flatMap diagByte = t ++ r) :
    ∃ m', m = t ++ m' ∧ Ch.dquote ∉ t ∧ m'.flatMap diagByte = r := by
  induction t generalizing m with
  | nil => exact ⟨m, rfl, by simp, h⟩
  | cons c t ih =>
    obtain ⟨m, rfl, hquote, htail⟩ := exists_of_copy_plain (ht c (by simp)) h
    obtain ⟨m', rfl, hquotes, hrest⟩ := ih (fun d hd => ht d (by simp [hd])) htail
    exact ⟨m', rfl, by simp [hquote.symm, hquotes], hrest⟩

/-- A backslash of the copy comes from a quote, or from a backslash. -/
lemma exists_of_copy_bslash {m r : Bytes} (h : m.flatMap diagByte = Ch.bslash :: r) :
    (∃ m', m = Ch.dquote :: m' ∧ r = Ch.dquote :: m'.flatMap diagByte) ∨
      ∃ m', m = Ch.bslash :: m' ∧ m'.flatMap diagByte = r := by
  cases m with
  | nil => simp at h
  | cons d m =>
    rw [List.flatMap_cons, diagByte] at h
    split_ifs at h with hquote
    · subst hquote
      exact Or.inl ⟨m, rfl, (List.cons.inj h).2.symm⟩
    · obtain ⟨rfl, htail⟩ := List.cons.inj h
      exact Or.inr ⟨m, rfl, htail⟩

lemma hexVal_ne_bslash {c : UInt8} {v : ℕ} (h : Json.hexVal c = some v) : c ≠ Ch.bslash := by
  rintro rfl
  cases h

lemma hex4_ne_bslash {a b c d : UInt8} {v : ℕ} (h : Json.hex4 [a, b, c, d] = some v) :
    ∀ e ∈ [0x75, a, b, c, d], e ≠ Ch.bslash := by
  obtain ⟨vs, hvs, -⟩ := Option.map_eq_some_iff.mp h
  simp only [List.mapM_cons, Option.bind_eq_bind, Option.bind_eq_some_iff] at hvs
  obtain ⟨_, ha, _, ⟨_, hb, _, ⟨_, hc, _, ⟨_, hd, -⟩, -⟩, -⟩, -⟩ := hvs
  simp only [List.mem_cons, List.not_mem_nil, or_false]
  rintro e (rfl | rfl | rfl | rfl | rfl)
  · decide
  · exact hexVal_ne_bslash ha
  · exact hexVal_ne_bslash hb
  · exact hexVal_ne_bslash hc
  · exact hexVal_ne_bslash hd

/-- The copy of a message is a JSON string only where the backslashes of the message start
escapes. -/
lemma escapes_of_isChars {m t s : Bytes} (h : Json.IsChars t s) (hm : m.flatMap diagByte = t) :
    Escapes m := by
  induction h generalizing m with
  | nil =>
    cases m with
    | nil => exact .nil
    | cons c m =>
      rw [List.flatMap_cons, diagByte] at hm
      split_ifs at hm <;> simp at hm
  | @cons t s ts ss h hs ih =>
    cases h with
    | @unescaped c hctl hquote hslash =>
      obtain ⟨m, rfl, -, htail⟩ := exists_of_copy_plain hslash hm
      exact .plain hctl hslash (ih htail)
    | @short e c h =>
      obtain ⟨m, rfl, hr⟩ | ⟨m, rfl, htail⟩ := exists_of_copy_bslash hm
      · obtain ⟨-, hrest⟩ := List.cons.inj hr
        exact .plain (by decide) (by decide) (ih hrest.symm)
      · by_cases he : e = Ch.bslash
        · subst he
          obtain ⟨m, rfl, hr⟩ | ⟨m, rfl, hrest⟩ := exists_of_copy_bslash htail
          · -- the quote behind the backslash would end the string
            cases hs with
            | nil => cases hr
            | @cons t s ts ss h' =>
              have hhead : t ++ ts = Ch.dquote :: m.flatMap diagByte := hr
              refine absurd ?_ (h'.head.2 ts)
              rw [hhead]
              rfl
          · have hno : Ch.dquote ∉ [Ch.bslash] := by decide
            exact .escape (t := [Ch.bslash]) (.short h) hno (ih hrest)
        · obtain ⟨m, rfl, hquote, hrest⟩ := exists_of_copy_plain he htail
          have hno : Ch.dquote ∉ [e] := by simpa using hquote.symm
          exact .escape (t := [e]) (.short h) hno (ih hrest)
    | @unicode a b c d cp h hsur =>
      obtain ⟨m, rfl, hr⟩ | ⟨m, rfl, htail⟩ := exists_of_copy_bslash hm
      · exact absurd (List.cons.inj hr).1 (by decide)
      · obtain ⟨m, rfl, hquote, hrest⟩ :=
          exists_of_copy (t := [0x75, a, b, c, d]) (hex4_ne_bslash h) htail
        exact .escape (.unicode h hsur) hquote (ih hrest)
    | @pair a b c d a' b' c' d' hi lo h h' hhi hlo =>
      obtain ⟨m, rfl, hr⟩ | ⟨m, rfl, htail⟩ := exists_of_copy_bslash hm
      · exact absurd (List.cons.inj hr).1 (by decide)
      · obtain ⟨m, rfl, hquote, hrest⟩ :=
          exists_of_copy (t := [0x75, a, b, c, d]) (hex4_ne_bslash h) htail
        obtain ⟨m, rfl, hr⟩ | ⟨m, rfl, hlow⟩ := exists_of_copy_bslash hrest
        · exact absurd (List.cons.inj hr).1 (by decide)
        · obtain ⟨m, rfl, hquote', hrest⟩ :=
            exists_of_copy (t := [0x75, a', b', c', d']) (hex4_ne_bslash h') hlow
          have hno : Ch.dquote ∉ [0x75, a, b, c, d] ++ Ch.bslash :: [0x75, a', b', c', d'] := by
            simp only [List.mem_append, List.mem_cons (a := Ch.dquote) (b := Ch.bslash), not_or]
            exact ⟨hquote, by decide, hquote'⟩
          have hwhole : Escapes (Ch.bslash ::
              ([0x75, a, b, c, d] ++ Ch.bslash :: [0x75, a', b', c', d']) ++ m) :=
            .escape (.pair h h' hhi hlo) hno (ih hrest)
          simpa using hwhole

/-! ## The object -/

/-- White space in front of a byte that is none is empty. -/
lemma ws_front {w x y : Bytes} {c : UInt8} (hw : Json.IsWs w) (hc : Json.isWs c = false)
    (h : w ++ x = c :: y) : w = [] ∧ x = c :: y := by
  cases w with
  | nil => exact ⟨rfl, h⟩
  | cons d w =>
    obtain ⟨rfl, -⟩ := List.cons.inj h
    exact absurd (hw d (by simp)) (by simp [hc])

/-- White space behind a byte that is none is empty. -/
lemma ws_back {w x y : Bytes} {c : UInt8} (hw : Json.IsWs w) (hc : Json.isWs c = false)
    (h : x ++ w = y ++ [c]) : w = [] ∧ x = y ++ [c] := by
  have hrev : w.reverse ++ x.reverse = c :: y.reverse := by
    rw [← List.reverse_append, h, List.reverse_append]
    rfl
  have hws : Json.IsWs w.reverse := fun d hd => hw d (List.mem_reverse.mp hd)
  obtain ⟨hnil, -⟩ := ws_front hws hc hrev
  obtain rfl := List.reverse_eq_nil_iff.mp hnil
  exact ⟨rfl, by simpa using h⟩

/-- A string in front of a quote is read up to that quote. -/
lemma chars_front {k k' s s' r r' : Bytes} (hk : Json.IsChars k s) (hk' : Json.IsChars k' s')
    (h : k ++ Ch.dquote :: r = k' ++ Ch.dquote :: r') : k = k' ∧ r = r' := by
  have hread := Json.readChars_eq hk (n := k.length + k'.length + 1) (by omega) r
  have hread' := Json.readChars_eq hk' (n := k.length + k'.length + 1) (by omega) r'
  have hsame : k ++ 0x22 :: r = k' ++ 0x22 :: r' := h
  rw [hsame, hread'] at hread
  obtain ⟨-, rfl⟩ := Prod.mk.inj (Option.some.inj hread)
  exact ⟨(List.append_left_inj _).mp hsame, rfl⟩

/-- The one member of a diagnostic holds the body. -/
lemma chars_of_members {t body s : Bytes}
    (h : Json.IsMembers t [(ascii "error", .string s)])
    (ht : t = 0x22 :: ascii "error" ++ 0x22 :: 0x3A :: (0x22 :: body ++ [0x22])) :
    ∃ s, Json.IsChars body s := by
  have hname : Json.IsChars (ascii "error") (ascii "error") :=
    Json.isChars_of_plain (List.all_eq_true.mp rfl)
  cases h with
  | cons _ _ _ _ _ _ hs => cases hs
  | @last u k u' w t w' _ _ hu hk hu' hw h hw' =>
    cases h with
    | @string t _ hchars =>
      have hfront : u ++ (Ch.dquote :: (k ++ Ch.dquote :: (u' ++ 0x3A :: (w ++
          ((0x22 :: t ++ [0x22]) ++ w'))))) =
          Ch.dquote :: (ascii "error" ++ Ch.dquote :: (0x3A :: (0x22 :: body ++ [0x22]))) := by
        simpa [Ch.dquote] using ht
      obtain ⟨rfl, hkey⟩ := ws_front hu (by decide) hfront
      obtain ⟨-, hcolon⟩ := chars_front hk hname (List.cons.inj hkey).2
      obtain ⟨rfl, hvalue⟩ := ws_front hu' (by decide) hcolon
      obtain ⟨rfl, hstring⟩ := ws_front hw (by decide) (List.cons.inj hvalue).2
      have hback : (0x22 :: t ++ [0x22]) ++ w' = (0x22 :: body) ++ [0x22] := hstring
      obtain ⟨rfl, hbody⟩ := ws_back hw' (by decide) hback
      obtain rfl := (List.cons.inj ((List.append_left_inj _).mp hbody)).2
      exact ⟨s, hchars⟩

/-- The text around a body is the object of a diagnostic exactly where the body is a JSON
string. -/
lemma isDiagnostic_iff (body : Bytes) :
    IsDiagnostic (ascii "\x7b\"error\":\"" ++ body ++ ascii "\"\x7d") ↔
      Utf8.Valid body ∧ ∃ s, Json.IsChars body s := by
  have hname : Json.IsChars (ascii "error") (ascii "error") :=
    Json.isChars_of_plain (List.all_eq_true.mp rfl)
  have htext : ascii "\x7b\"error\":\"" ++ body ++ ascii "\"\x7d" =
      0x7B :: (0x22 :: ascii "error" ++ 0x22 :: 0x3A :: (0x22 :: body ++ [0x22])) ++ [0x7D] := by
    simp [ascii]
  have hutf8 : Utf8.Valid (ascii "\x7b\"error\":\"" ++ body ++ ascii "\"\x7d") ↔
      Utf8.Valid body := by
    have hclose : Utf8.Valid [0x7D] := Utf8.valid_of_all rfl
    have hquote : ascii "\"\x7d" = Ch.dquote :: [0x7D] := rfl
    rw [List.append_assoc, Utf8.valid_ascii_append_iff rfl, hquote,
      Utf8.valid_append_cons_iff (by decide)]
    simp [hclose]
  constructor
  · rintro ⟨s, hvalid, w, t, w', hw, hw', hvalue, heq⟩
    refine ⟨hutf8.mp hvalid, ?_⟩
    rw [htext] at heq
    cases hvalue with
    | @object t _ hmembers =>
      -- nothing stands around the braces
      have hfront : w ++ (0x7B :: t ++ [0x7D] ++ w') = 0x7B :: (0x22 :: ascii "error" ++
          0x22 :: 0x3A :: (0x22 :: body ++ [0x22]) ++ [0x7D]) := by
        rw [← List.append_assoc]
        exact heq.symm
      obtain ⟨rfl, hback⟩ := ws_front hw (by decide) hfront
      have hback' : 0x7B :: t ++ [0x7D] ++ w' = (0x7B :: (0x22 :: ascii "error" ++
          0x22 :: 0x3A :: (0x22 :: body ++ [0x22]))) ++ [0x7D] := hback
      obtain ⟨rfl, hinner⟩ := ws_back hw' (by decide) hback'
      exact chars_of_members hmembers (List.cons.inj (List.append_left_inj _ |>.mp hinner)).2
  · rintro ⟨hvalid, s, hchars⟩
    refine ⟨s, Json.IsValue.isText (hutf8.mpr hvalid) ?_⟩
    rw [htext]
    exact .object (.single hname (.string hchars))

/-! ## Messages -/

/-- A message that can stand in a diagnostic. -/
def DiagClean (msg : Bytes) : Prop := Utf8.Valid (diagCut 1 msg) ∧ Escapes (diagCut 1 msg)

lemma diagByte_ne_nil : ∀ c : UInt8, c < 0x80 → diagByte c ≠ [] := by
  intro c _
  rw [diagByte]
  split_ifs <;> simp

lemma diagByte_ascii : ∀ c : UInt8, c < 0x80 → ∀ d ∈ diagByte c, d < 0x80 :=
  Utf8.ascii_of_all (by decide +kernel)

lemma diagByte_multi : ∀ c : UInt8, ¬ c < 0x80 → diagByte c = [c] := by grind [diagByte]

/-- The copy fills at most 286 bytes. -/
lemma length_diagCut (o : ℕ) (ho : o ≤ 287) (msg : Bytes) :
    o + ((diagCut o msg).flatMap diagByte).length ≤ 287 := by
  induction msg generalizing o with
  | nil => simpa [diagCut] using ho
  | cons c cs ih =>
    rw [diagCut]
    by_cases hroom : o < 286
    · rw [if_pos hroom, List.flatMap_cons, List.length_append, diagByte]
      by_cases hquote : c = Ch.dquote
      · have hrest := ih (o + 2) (by omega)
        rw [if_pos hquote, if_pos hquote]
        simp only [List.length_cons, List.length_nil]
        omega
      · have hrest := ih (o + 1) (by omega)
        rw [if_neg hquote, if_neg hquote]
        simp only [List.length_cons, List.length_nil]
        omega
    · rw [if_neg hroom]
      simpa using ho

/-- A diagnostic that fits into its buffer is JSON exactly where its message can stand in it. -/
lemma isDiagnostic_diagnostic {size : ℕ} {msg : Bytes}
    (hsize : ((diagCut 1 msg).flatMap diagByte).length + 12 < size) :
    IsDiagnostic (diagnostic size msg) ↔ DiagClean msg := by
  have hfits : diagnostic size msg =
      ascii "\x7b\"error\":\"" ++ (diagCut 1 msg).flatMap diagByte ++ ascii "\"\x7d" := by
    rw [diagnostic, List.take_of_length_le]
    have hopen : (ascii "\x7b\"error\":\"").length = 10 := rfl
    have hclose : (ascii "\"\x7d").length = 2 := rfl
    rw [List.length_append, List.length_append, hopen, hclose]
    omega
  rw [hfits, isDiagnostic_iff, DiagClean,
    Utf8.valid_flatMap_iff diagByte_ne_nil diagByte_ascii diagByte_multi]
  refine and_congr_right fun _ => ⟨?_, Escapes.isChars⟩
  rintro ⟨s, hs⟩
  exact escapes_of_isChars hs rfl

/-- The diagnostic of a schema that does not compile. -/
lemma isDiagnostic_compile (msg : Bytes) :
    IsDiagnostic (compileDiagnostic msg) ↔ DiagClean (msg.take 255) := by
  have hlen := length_diagCut 1 (by decide) (msg.take 255)
  exact isDiagnostic_diagnostic (by omega)

/-- A short message without quotes is copied whole. -/
lemma diagCut_eq {o : ℕ} {msg : Bytes} (hquote : Ch.dquote ∉ msg) (hlen : o + msg.length ≤ 286) :
    diagCut o msg = msg := by
  induction msg generalizing o with
  | nil => rfl
  | cons c cs ih =>
    obtain ⟨hc, hcs⟩ := List.ne_and_not_mem_of_not_mem_cons hquote
    rw [List.length_cons] at hlen
    rw [diagCut, if_pos (by omega), if_neg (Ne.symm hc), ih hcs (by omega)]

/-- In front of an escape, bytes that are no backslash do not matter. -/
lemma Escapes.of_append {a b : Bytes} (ha : Ch.bslash ∉ a) (h : Escapes (a ++ b)) :
    Escapes b := by
  induction a with
  | nil => exact h
  | cons c a ih =>
    obtain ⟨hc, ha⟩ := List.ne_and_not_mem_of_not_mem_cons ha
    generalize hx : c :: a ++ b = x at h
    cases h with
    | nil => cases hx
    | plain _ _ h =>
      obtain ⟨rfl, rfl⟩ := List.cons.inj hx
      exact ih ha h
    | escape => exact absurd (List.cons.inj hx).1.symm hc

/-- `\u` in front of a blank starts no escape. -/
lemma not_escapes_unicode (r : Bytes) : ¬ Escapes (Ch.bslash :: 0x75 :: 0x20 :: r) := by
  intro h
  have hread : Json.readChar (Ch.bslash :: 0x75 :: 0x20 :: r) = none := by
    simp [Json.readChar, Ch.bslash, Json.readUnicode, Json.hex4, Json.hexVal]
  generalize hx : Ch.bslash :: 0x75 :: 0x20 :: r = x at h hread
  cases h with
  | nil => cases hx
  | plain _ hslash _ => exact hslash (List.cons.inj hx).1.symm
  | @escape t s cs hchar _ h =>
    rw [Json.readChar_eq hchar] at hread
    cases hread

/-- A message without backslashes, quotes and control bytes can stand in a diagnostic. -/
lemma escapes_of_plain {m : Bytes} (h : ∀ c ∈ m, 0x20 ≤ c ∧ c ≠ Ch.bslash) : Escapes m := by
  induction m with
  | nil => exact .nil
  | cons c m ih =>
    obtain ⟨hctl, hslash⟩ := h c (by simp)
    exact .plain hctl hslash (ih fun d hd => h d (by simp [hd]))

/-- What the messages of `json_read` look like. -/
lemma readMessages_shape : ∀ m ∈ readMessages, (ascii m).length ≤ 40 ∧
    (∀ c ∈ ascii m, 0x20 ≤ c ∧ c < 0x80 ∧ c ≠ Ch.dquote) ∧
    (Ch.bslash ∈ ascii m →
      ((ascii m).dropWhile (· ≠ Ch.bslash)).take 3 = [Ch.bslash, 0x75, 0x20]) := by
  have hall : readMessages.all (fun m => decide ((ascii m).length ≤ 40) &&
      ((ascii m).all fun c => decide (0x20 ≤ c ∧ c < 0x80 ∧ c ≠ Ch.dquote)) &&
      decide (Ch.bslash ∈ ascii m →
        ((ascii m).dropWhile (· ≠ Ch.bslash)).take 3 = [Ch.bslash, 0x75, 0x20])) = true := by
    decide +kernel
  intro m hm
  have hm' := List.all_eq_true.mp hall m hm
  simp only [Bool.and_eq_true, decide_eq_true_eq, List.all_eq_true] at hm'
  exact ⟨hm'.1.1, hm'.1.2, hm'.2⟩

lemma isDec_natText (mag : ℕ) : ∀ c ∈ natText mag, isDec c = true := by
  have hdec : ∀ n mag, ∀ c ∈ decText n mag, isDec c = true := by
    intro n
    induction n with
    | zero => simp [decText]
    | succ n ih =>
      intro mag c hc
      rw [decText] at hc
      rcases List.mem_append.mp hc with hc | hc
      · split_ifs at hc
        · cases hc
        · exact ih _ c hc
      · obtain rfl := List.mem_singleton.mp hc
        exact isDec_digitChar (Nat.mod_lt _ (by decide))
  exact hdec 20 mag

/-- The diagnostic of a text that is not read is JSON unless the message names the escape `\u`. -/
lemma isDiagnostic_read {m : String} (hm : m ∈ readMessages) (pos : ℕ) :
    IsDiagnostic (readDiagnostic (jfailText m pos)) ↔ Ch.bslash ∉ ascii m := by
  obtain ⟨hlen, hshape, hescape⟩ := readMessages_shape m hm
  have hat : ∀ c ∈ ascii " at byte ", 0x20 ≤ c ∧ c < 0x80 ∧ c ≠ Ch.dquote ∧ c ≠ Ch.bslash :=
    List.all_iff_forall_prop.mp (by decide +kernel)
  have hdec : ∀ c : UInt8, isDec c = true →
      0x20 ≤ c ∧ c < 0x80 ∧ c ≠ Ch.dquote ∧ c ≠ Ch.bslash := by
    decide +kernel
  have htail : ∀ c ∈ ascii " at byte " ++ natText pos,
      0x20 ≤ c ∧ c < 0x80 ∧ c ≠ Ch.dquote ∧ c ≠ Ch.bslash := by
    intro c hc
    rcases List.mem_append.mp hc with hc | hc
    · exact hat c hc
    · exact hdec c (isDec_natText pos c hc)
  have hmsg : jfailText m pos = ascii m ++ (ascii " at byte " ++ natText pos) := by
    rw [jfailText, List.append_assoc]
  have hlength : (jfailText m pos).length ≤ 69 := by
    have hnat := length_natText_le pos
    have hnine : (ascii " at byte ").length = 9 := rfl
    rw [hmsg, List.length_append, List.length_append, hnine]
    omega
  have hall : ∀ c ∈ jfailText m pos, 0x20 ≤ c ∧ c < 0x80 ∧ c ≠ Ch.dquote := by
    rw [hmsg]
    intro c hc
    rcases List.mem_append.mp hc with hc | hc
    · exact hshape c hc
    · exact ⟨(htail c hc).1, (htail c hc).2.1, (htail c hc).2.2.1⟩
  have hquote : Ch.dquote ∉ jfailText m pos := fun hc => (hall _ hc).2.2 rfl
  have hcut : diagCut 1 (jfailText m pos) = jfailText m pos := diagCut_eq hquote (by omega)
  have hvalid : Utf8.Valid (jfailText m pos) :=
    Utf8.valid_of_ascii fun c hc => (hall c hc).2.1
  have hcopy : ((diagCut 1 (jfailText m pos)).flatMap diagByte).length + 12 < 256 := by
    rw [hcut, diagBytes_eq hquote]
    omega
  rw [readDiagnostic, List.take_of_length_le (by omega), isDiagnostic_diagnostic hcopy, DiagClean,
    hcut, and_iff_right hvalid]
  constructor
  · intro hesc hslash
    have hthree := hescape hslash
    rw [hmsg, ← List.takeWhile_append_dropWhile (p := (· ≠ Ch.bslash)) (l := ascii m)] at hesc
    generalize hdrop : (ascii m).dropWhile (· ≠ Ch.bslash) = d at hthree hesc
    have hbefore : Ch.bslash ∉ (ascii m).takeWhile (· ≠ Ch.bslash) := by
      intro hc
      simpa using List.mem_takeWhile_imp hc
    obtain ⟨r, rfl⟩ : ∃ r, d = Ch.bslash :: 0x75 :: 0x20 :: r := by
      rw [← List.take_append_drop 3 d, hthree]
      exact ⟨_, rfl⟩
    rw [List.append_assoc] at hesc
    exact not_escapes_unicode _ (hesc.of_append hbefore)
  · intro hslash
    refine escapes_of_plain fun c hc => ⟨(hall c hc).1, ?_⟩
    rintro rfl
    rw [hmsg] at hc
    rcases List.mem_append.mp hc with hc | hc
    · exact hslash hc
    · exact (htail _ hc).2.2.2 rfl

/-! ## Reports and diagnostics -/

/-- The report of a context. -/
def Vctx.report (c : Vctx) : Bytes :=
  if c.buf ≠ [] then Ch.lbrack :: c.buf ++ [Ch.rbrack] else [Ch.lbrack, Ch.rbrack]

lemma report_runActs (acts : List Act) :
    (runActs acts .new).report = reportText (reported acts .new) := by
  have hbuf := (runActs_wrote acts Vctx.Wrote.new).buf
  rw [List.nil_append] at hbuf
  rw [Vctx.report, hbuf, reportText]
  by_cases hempty : joined (reported acts .new) = []
  · rw [if_neg (not_not.mpr hempty), hempty]
    rfl
  · rw [if_pos hempty]

/-- The document `"a\nb" = 1`. -/
def lfKeyDocument : Bytes :=
  [Ch.dquote, 0x61, Ch.bslash, 0x6E, 0x62, Ch.dquote, Ch.eq, 0x31]

/-- The tree of that document. -/
def lfKeyTree : Node := .table .explicit [(Key.ofBytes [0x61, Ch.lf, 0x62], .integer 1)]

/-- The schema that allows no properties. -/
def noProperties : SchNode Unit :=
  .mk {} [] [] (some (.leaf { isFalse := true })) none [] [] none none none [] [] [] none none
    none none

end Teptris
