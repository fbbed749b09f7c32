import Teptris.Emit.Reread
import Teptris.Grammar.Datetime

/-!
# Scalars and keys as tokens

A scalar and a key, each in the places the emitter writes it to: read back there, as what it was
written for and up to its last byte.  `key_to_buf` escapes no DEL, and the parser refuses one, so
the keys that come back are the ones without it.
-/

namespace Teptris

/-! ## Scalars -/

/-- A string, an integer, a boolean, or a datetime that the parser makes of some text. -/
inductive IsScalar : Node → Prop
  | string (s : Bytes) : IsScalar (.string s)
  | integer (i : Int64) : IsScalar (.integer i)
  | boolean (b : Bool) : IsScalar (.boolean b)
  | datetime {cfg : Config} {cp : Bytes} {levels : ℕ} {t q : Bytes} {kind : DtKind}
      {dt : Datetime} (h : parseValue cfg cp levels t = .ok (.datetime kind dt, q)) :
      IsScalar (.datetime kind dt)

/-- What the emitter writes behind a value: the end of its key line, or the rest of the array or
of the inline table that holds it. -/
inductive Follows (fc : FloatConv) : Bytes → Prop
  | line (q : Bytes) : Follows fc (Ch.lf :: q)
  | array (vs : List Node) (q : Bytes) : Follows fc (emitMoreItems fc vs ++ Ch.rbrack :: q)
  | inline (es : Entries) (q : Bytes) : Follows fc (emitMoreMembers fc es ++ Ch.rbrace :: q)

lemma Follows.ends {fc : FloatConv} {r : Bytes} (h : Follows fc r) : Ends r := by
  rw [Ends]
  cases h with
  | line q => simp
  | array vs q => cases vs <;> simp [emitMoreItems]
  | inline es q => cases es <;> simp [emitMoreMembers]

/-- The fields of a datetime the parser makes are those of its kind, in range. -/
lemma datetime_ok {cfg : Config} {cp : Bytes} {levels : ℕ} {t q : Bytes} {kind : DtKind}
    {dt : Datetime} (h : parseValue cfg cp levels t = .ok (.datetime kind dt, q)) : dt.Ok kind := by
  obtain ⟨hlook, hread⟩ := parseValue_datetime_iff.mp h
  obtain ⟨-, hvalue, -⟩ := parseDatetime_spec hlook hread
  cases hvalue with
  | datetime hok => exact hok

/-- The text of a scalar is read as that scalar, whatever arrays and inline tables do. -/
lemma valueDispatch_emit {fc fc' : FloatConv} (array inline : Bytes → Res Node) {v : Node}
    (hv : IsScalar v) {r : Bytes} (hr : Ends r) :
    valueDispatch fc array inline (emitValue fc' v ++ r) = .ok (v, r) := by
  cases hv with
  | string s => exact valueDispatch_string fc array inline s hr
  | integer i => exact valueDispatch_integer fc array inline i hr
  | boolean b => exact valueDispatch_boolean fc array inline b
  | datetime h => exact valueDispatch_datetime fc array inline (datetime_ok h) hr

/-- A scalar read from the text that was written for it, in a key line, an array or an inline
table, is the scalar itself, and exactly its text is consumed. -/
theorem scalar_round_trip (cfg : Config) (cp : Bytes) (levels : ℕ) (fc : FloatConv) {v : Node}
    (hv : IsScalar v) {r : Bytes} (hr : Follows fc r) :
    parseValue cfg cp levels (emitValue fc v ++ r) = .ok (v, r) ∧
      parseValueFast cfg cp levels (emitValue fc v ++ r) = .ok (v, r) := by
  have hread : parseValue cfg cp levels (emitValue fc v ++ r) = .ok (v, r) := by
    cases levels with
    | zero => exact valueDispatch_emit _ _ hv hr.ends
    | succ levels =>
      rw [parseValue_succ]
      exact valueDispatch_emit _ _ hv hr.ends
  rw [parseValueFast_eq]
  exact ⟨hread, hread⟩

/-- The time `07:32` in an array, in front of an integer. -/
theorem scalar_round_trip_time :
    let v := Node.datetime .timeLocal ⟨0, 0, 0, 7, 32, 0, 0, 0⟩
    let r := emitMoreItems .zero [.integer 1] ++ Ch.rbrack :: []
    parseValue (.ofOptions .zero 0) [] 3 (emitValue .zero v ++ r) = .ok (v, r) ∧
      parseValueFast (.ofOptions .zero 0) [] 3 (emitValue .zero v ++ r) = .ok (v, r) :=
  scalar_round_trip (.ofOptions .zero 0) [] 3 .zero
    (.datetime (show parseValue (.ofOptions .zero 0) [] 0 [0x30, 0x37, 0x3A, 0x33, 0x32] =
      .ok (.datetime .timeLocal ⟨0, 0, 0, 7, 32, 0, 0, 0⟩, []) by rfl))
    (.array [.integer 1] [])

/-! ## Keys -/

lemma length_keyByte_le (c : UInt8) : (keyByte c).length ≤ 6 := by
  rw [keyByte]
  split_ifs <;> simp [unicodeText]

/-- The text of a key fits the buffer it is written to. -/
lemma length_emitKey_le (key : Bytes) : (emitKey key).length ≤ keyBufCap key := by
  have hbytes : (key.flatMap keyByte).length ≤ key.length * 6 := by
    induction key with
    | nil => simp
    | cons c key ih =>
      have := length_keyByte_le c
      rw [List.flatMap_cons, List.length_append, List.length_cons]
      omega
  rw [emitKey, keyBufCap]
  split_ifs
  · omega
  · rw [literalText, List.length_append, List.length_cons, List.length_singleton]
    omega
  · rw [List.length_append, List.length_cons, List.length_singleton]
    omega

/-- What the emitter writes behind a part of a key path: an equals sign in a key line or an inline
table, a dot or the closing bracket in a header. -/
inductive KeyFollows : Bytes → Prop
  | pair (q : Bytes) : KeyFollows (eqText ++ q)
  | path (q : Bytes) : KeyFollows (Ch.dot :: q)
  | header (q : Bytes) : KeyFollows (Ch.rbrack :: q)

lemma KeyFollows.ends {r : Bytes} (h : KeyFollows r) : ∀ c ∈ r.head?, isBareKey c = false := by
  cases h <;> simp only [List.cons_append, List.head?_cons, Option.mem_some_iff, forall_eq'] <;>
    decide

/-- The text of a key is read as that key, as one part of a key path, and fits its buffer. -/
structure KeyRoundTrips (key : Bytes) : Prop where
  /-- Exactly the text is consumed. -/
  part {r : Bytes} (hr : KeyFollows r) : keyPart (emitKey key ++ r) = .ok (key, r)
  /-- In front of a dot the path goes on behind it. -/
  path {maxDepth : ℕ} {acc : List Key} (hdepth : acc.length < maxDepth) (q : Bytes) :
    keyPathTurn maxDepth (acc, emitKey key ++ Ch.dot :: q) =
      .ok (.next (acc ++ [Key.ofBytes key], q))
  /-- In a header the path ends at the bracket. -/
  header {maxDepth : ℕ} {acc : List Key} (hdepth : acc.length < maxDepth) (q : Bytes) :
    keyPathTurn maxDepth (acc, emitKey key ++ Ch.rbrack :: q) =
      .ok (.stop (⟨acc, Key.ofBytes key⟩, Ch.rbrack :: q))
  /-- In a key line or an inline table it is the whole path. -/
  pair {maxDepth : ℕ} (hdepth : 0 < maxDepth) (q : Bytes) :
    parseKeyPath maxDepth (emitKey key ++ (eqText ++ q)) =
      .ok (⟨[], Key.ofBytes key⟩, Ch.eq :: Ch.sp :: q)
  /-- The buffer holds it. -/
  fits : (emitKey key).length ≤ keyBufCap key

/-- A key comes back exactly where it holds no DEL. -/
theorem key_round_trip_iff (key : Bytes) : KeyRoundTrips key ↔ Ch.del ∉ key := by
  constructor
  · intro h hdel
    -- a DEL that is read over would have to stand behind the key
    have hread := h.part (.pair [])
    have hclean := (keyPart_spec hread).1.clean (List.mem_append_left _ (del_mem_emitKey hdel))
    exact absurd hclean (by decide)
  · intro hdel
    have hturn : ∀ {maxDepth : ℕ} {acc : List Key} {r : Bytes}, acc.length < maxDepth →
        KeyFollows r → keyPathTurn maxDepth (acc, emitKey key ++ r) =
          if (skipWs r).head? = some Ch.dot then
            .ok (.next (acc ++ [Key.ofBytes key], (skipWs r).drop 1))
          else .ok (.stop (⟨acc, Key.ofBytes key⟩, skipWs r)) := fun hdepth hr =>
      keyPathTurn_emit hdel hdepth hr.ends
    refine ⟨fun hr => keyPart_emit hdel hr.ends, fun hdepth q => ?_, fun hdepth q => ?_,
      fun hdepth q => ?_, length_emitKey_le key⟩
    · rw [hturn hdepth (.path q), skipWs_cons q (by decide), List.head?_cons, if_pos rfl]
      rfl
    · rw [hturn hdepth (.header q), skipWs_cons q (by decide), List.head?_cons,
        if_neg (by decide)]
    · refine Loop.loop_stop ?_
      have hskip : skipWs (eqText ++ q) = Ch.eq :: Ch.sp :: q := rfl
      rw [hturn hdepth (.pair q), hskip, List.head?_cons, if_neg (by decide)]

/-- The key of `"\u007F" = 1` is read, and does not come back. -/
theorem key_round_trip_del :
    ¬ ∀ key : Bytes, (∃ t q, keyPart t = .ok (key, q)) → KeyRoundTrips key := by
  intro h
  have hread : keyPart ([Ch.dquote, Ch.bslash, 0x75, 0x30, 0x30, 0x37, 0x46, Ch.dquote] ++
      (eqText ++ [0x31])) = .ok ([Ch.del], eqText ++ [0x31]) := by rfl
  have hpart := (h [Ch.del] ⟨_, _, hread⟩).part (.pair [])
  have hfail : (keyPart (emitKey [Ch.del] ++ (eqText ++ []))).isOk = false := by rfl
  rw [hpart] at hfail
  exact absurd hfail (by decide)

end Teptris
