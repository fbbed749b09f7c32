import Teptris.Dom.Height
import Teptris.Dom.Tree
import Teptris.Emit.Document
import Teptris.Emit.Scalars

/-!
# Values read back

`emit_value` against `teptris_parse_value`: a value within the depth limit whose keys hold no DEL
is read as itself, up to its flags and its NaNs (`Node.asValue`).
-/

namespace Teptris

open Loop

/-! ## What is read back -/

mutual

/-- A value as it is read back: there is one NaN, and every table is inline. -/
def Node.asValue : Node → Node
  | .string s => .string s
  | .integer i => .integer i
  | .float f => .float f.reread
  | .boolean b => .boolean b
  | .datetime kind dt => .datetime kind dt
  | .array _ items => .array false (itemsAsValue items)
  | .table _ es => .table .inline (entriesAsValue es)

/-- The elements of an array as they are read back. -/
def itemsAsValue : List Node → List Node
  | [] => []
  | v :: vs => v.asValue :: itemsAsValue vs

/-- The members of an inline table as they are read back. -/
def entriesAsValue : List (Key × Node) → List (Key × Node)
  | [] => []
  | (k, v) :: es => (k, v.asValue) :: entriesAsValue es

end

lemma itemsAsValue_eq (items : List Node) : itemsAsValue items = items.map Node.asValue := by
  induction items with
  | nil => rfl
  | cons v vs ih => rw [itemsAsValue, ih, List.map_cons]

lemma entriesAsValue_eq (es : Entries) :
    entriesAsValue es = es.map fun e => (e.1, e.2.asValue) := by
  induction es with
  | nil => rfl
  | cons e es ih => rw [entriesAsValue, ih, List.map_cons]

/-- A scalar whose text is read back. -/
def Node.ScalarReads (fc : FloatConv) : Node → Prop
  | .float f => f.isFinite = true → fc.RoundTrips f
  | .datetime kind dt => dt.Ok kind
  | _ => True

/-- A node with scalars whose texts are read back, and keys without DEL. -/
abbrev Node.Reads (fc : FloatConv) (n : Node) : Prop :=
  n.All (fun k => Ch.del ∉ k) (Node.ScalarReads fc)

/-! ## Gaps -/

/-- A byte that no gap between elements holds. -/
def IsSolid (c : UInt8) : Prop := isWs c = false ∧ c ≠ Ch.lf ∧ c ≠ Ch.cr ∧ c ≠ Ch.hash

instance (c : UInt8) : Decidable (IsSolid c) := by unfold IsSolid; infer_instance

/-- A gap of white space ends at a solid byte. -/
lemma skipArrayGap_solid {r cs : Bytes} {c : UInt8} (h : r.dropWhile isWs = c :: cs)
    (hc : IsSolid c) : skipArrayGap r = .ok (c :: cs) := by
  refine loop_stop ?_
  rw [skipArrayGapTurn, h]
  simp only [if_neg hc.2.1, if_neg hc.2.2.1, if_neg hc.2.2.2]

/-- A solid byte stands in no gap. -/
lemma dropWhile_solid {c : UInt8} (hc : IsSolid c) (cs : Bytes) :
    (c :: cs).dropWhile isWs = c :: cs := by
  simp [hc.1]

/-! ## Member loops -/

/-- The members behind the first one, as the emitter writes them. -/
def moreText {β : Type} (text : β → Bytes) (xs : List β) : Bytes :=
  xs.flatMap fun x => sepText ++ text x

/-- A member at a solid byte that does not close the list, where it is read and added. -/
structure MemberReads {α : Type} (close : UInt8) (member : α → Bytes → Res α) (t : Bytes)
    (a b : α) : Prop where
  /-- It is read up to the end of its text. -/
  read (r : Bytes) (hr : Ends r) : member a (t ++ r) = .ok (b, r)
  /-- It starts with a solid byte. -/
  head (r : Bytes) : ∃ c cs, t ++ r = c :: cs ∧ IsSolid c ∧ c ≠ close

section Members

variable {α β : Type} {close : UInt8} {unterminated expected : String}
  {member : α → Bytes → Res α} {text : β → Bytes} {add : α → β → α} {I : α → List β → Prop}

/-- What closes a list or separates its members. -/
lemma moreText_head (hclose : close = Ch.rbrack ∨ close = Ch.rbrace) (xs : List β) (r : Bytes) :
    Ends (moreText text xs ++ close :: r) ∧
      skipArrayGap (moreText text xs ++ close :: r) = .ok (moreText text xs ++ close :: r) := by
  have hsolid : IsSolid close := by rcases hclose with rfl | rfl <;> decide
  cases xs with
  | nil =>
    refine ⟨?_, skipArrayGap_solid (dropWhile_solid hsolid r) hsolid⟩
    intro c hc
    obtain rfl := Option.some.inj hc
    tauto
  | cons x xs =>
    refine ⟨?_, skipArrayGap_solid (dropWhile_solid (by decide) _) (by decide)⟩
    intro c hc
    obtain rfl := Option.some.inj hc
    exact .inr (.inl rfl)

/-- White space in front of a solid byte. -/
lemma skipArrayGap_lead {w cs : Bytes} {c : UInt8} (hw : w = [] ∨ w = [Ch.sp])
    (hsolid : IsSolid c) :
    skipArrayGap (w ++ c :: cs) = .ok (c :: cs) := by
  refine skipArrayGap_solid ?_ hsolid
  rcases hw with rfl | rfl
  · exact dropWhile_solid hsolid cs
  · exact dropWhile_solid hsolid cs

/-- One turn at a member, up to what follows it. -/
lemma memberTurn_text {a b : α} {t w q : Bytes} (h : MemberReads close member t a b)
    (hw : w = [] ∨ w = [Ch.sp]) (hends : Ends q) (hgap : skipArrayGap q = .ok q) :
    memberTurn close unterminated expected member (a, w ++ (t ++ q)) =
      if q.head? = some Ch.comma then .ok (.next (b, q.drop 1))
      else if q.head? = some close then .ok (.stop (b, q.drop 1))
      else failAt q .errSyntax expected := by
  have hread := h.read q hends
  obtain ⟨c, cs, htext, hsolid, hne⟩ := h.head q
  rw [htext] at hread ⊢
  simp only [memberTurn, skipArrayGap_lead hw hsolid, if_neg hne, hread, hgap]

/-- The member loop reads the members the emitter writes. -/
lemma members_more (hclose : close = Ch.rbrack ∨ close = Ch.rbrace)
    (hshrinks : Shrinks (memberTurn close unterminated expected member) (fun s => s.2.length))
    (hstep : ∀ a x xs, I a (x :: xs) →
      MemberReads close member (text x) a (add a x) ∧ I (add a x) xs)
    {a : α} {x : β} {xs : List β} (h : I a (x :: xs)) {w : Bytes} (hw : w = [] ∨ w = [Ch.sp])
    (r : Bytes) :
    members close unterminated expected member a
      (w ++ (text x ++ (moreText text xs ++ close :: r))) = .ok ((x :: xs).foldl add a, r) := by
  induction xs generalizing a x w with
  | nil =>
    obtain ⟨hmember, -⟩ := hstep a x [] h
    obtain ⟨hends, hgap⟩ := @moreText_head β close text hclose [] r
    have hne : close ≠ Ch.comma := by rcases hclose with rfl | rfl <;> decide
    refine loop_stop ?_
    rw [memberTurn_text hmember hw hends hgap]
    simp [moreText, hne]
  | cons y xs ih =>
    obtain ⟨hmember, hnext⟩ := hstep a x (y :: xs) h
    obtain ⟨hends, hgap⟩ := @moreText_head β close text hclose (y :: xs) r
    have hturn : memberTurn close unterminated expected member
        (a, w ++ (text x ++ (moreText text (y :: xs) ++ close :: r))) =
        .ok (.next (add a x, [Ch.sp] ++ (text y ++ (moreText text xs ++ close :: r)))) := by
      rw [memberTurn_text hmember hw hends hgap]
      simp [moreText]
    rw [members, loop_next hshrinks hturn]
    exact ih hnext (.inr rfl)

/-- An empty list. -/
lemma members_nil (hclose : close = Ch.rbrack ∨ close = Ch.rbrace) (a : α) (r : Bytes) :
    members close unterminated expected member a (close :: r) = .ok (a, r) := by
  have hsolid : IsSolid close := by rcases hclose with rfl | rfl <;> decide
  refine loop_stop ?_
  simp only [memberTurn, skipArrayGap_solid (dropWhile_solid hsolid r) hsolid, if_true]

/-- A member at a solid byte that does not close the list, where it is not accepted. -/
structure MemberFails {α : Type} (close : UInt8) (member : α → Bytes → Res α) (t : Bytes)
    (a : α) : Prop where
  /-- It is not read. -/
  fail (r : Bytes) (hr : Ends r) (x : α × Bytes) : member a (t ++ r) ≠ .ok x
  /-- It starts with a solid byte. -/
  head (r : Bytes) : ∃ c cs, t ++ r = c :: cs ∧ IsSolid c ∧ c ≠ close

/-- The member loop ends at a member that is not accepted. -/
lemma members_fail {a : α} {t w q : Bytes} (h : MemberFails close member t a)
    (hw : w = [] ∨ w = [Ch.sp]) (hq : Ends q) (z : α × Bytes) :
    members close unterminated expected member a (w ++ (t ++ q)) ≠ .ok z := by
  obtain ⟨c, cs, htext, hsolid, hne⟩ := h.head q
  have hfail := h.fail q hq
  rw [htext] at hfail
  cases hmember : member a (c :: cs) with
  | ok x => exact absurd hmember (hfail x)
  | error e =>
    have hturn : memberTurn close unterminated expected member (a, w ++ (t ++ q)) = .error e := by
      rw [htext]
      simp only [memberTurn, skipArrayGap_lead hw hsolid, if_neg hne, hmember]
    rw [members, loop_error hturn]
    exact fun h => by cases h

/-- The member loop does not accept a list with a member that is not accepted. -/
lemma members_stuck (hclose : close = Ch.rbrack ∨ close = Ch.rbrace)
    (hshrinks : Shrinks (memberTurn close unterminated expected member) (fun s => s.2.length))
    {bad : β → Prop}
    (hstep : ∀ a x xs, I a (x :: xs) →
      (bad x → MemberFails close member (text x) a) ∧
      (¬ bad x → MemberReads close member (text x) a (add a x) ∧ I (add a x) xs))
    {a : α} {x : β} {xs : List β} (h : I a (x :: xs)) (hbad : ∃ y ∈ x :: xs, bad y) {w : Bytes}
    (hw : w = [] ∨ w = [Ch.sp]) (r : Bytes) (z : α × Bytes) :
    members close unterminated expected member a
      (w ++ (text x ++ (moreText text xs ++ close :: r))) ≠ .ok z := by
  induction xs generalizing a x w with
  | nil =>
    obtain ⟨y, hy, hbad⟩ := hbad
    obtain rfl := List.mem_singleton.mp hy
    obtain ⟨hends, -⟩ := @moreText_head β close text hclose [] r
    exact members_fail ((hstep a y [] h).1 hbad) hw hends z
  | cons y xs ih =>
    obtain ⟨hends, hgap⟩ := @moreText_head β close text hclose (y :: xs) r
    by_cases hx : bad x
    · exact members_fail ((hstep a x _ h).1 hx) hw hends z
    · obtain ⟨hmember, hnext⟩ := (hstep a x _ h).2 hx
      have hturn : memberTurn close unterminated expected member
          (a, w ++ (text x ++ (moreText text (y :: xs) ++ close :: r))) =
          .ok (.next (add a x, [Ch.sp] ++ (text y ++ (moreText text xs ++ close :: r)))) := by
        rw [memberTurn_text hmember hw hends hgap]
        simp [moreText]
      rw [members, loop_next hshrinks hturn]
      refine ih hnext ?_ (.inr rfl)
      obtain ⟨u, hu, hbad⟩ := hbad
      rcases List.mem_cons.mp hu with rfl | hu
      · exact absurd hbad hx
      · exact ⟨u, hu, hbad⟩

end Members

/-! ## Elements -/

/-- A value starts with a solid byte that closes nothing. -/
lemma valueDispatch_head {fc : FloatConv} {array inline : Bytes → Res Node} {r : Bytes}
    {x : Node × Bytes} (h : valueDispatch fc array inline r = .ok x) :
    ∃ c cs, r = c :: cs ∧ IsSolid c ∧ c ≠ Ch.rbrack ∧ c ≠ Ch.rbrace := by
  obtain _ | ⟨c, cs⟩ := r
  · simp [valueDispatch] at h
  refine ⟨c, cs, rfl, ?_⟩
  have hstart : c = Ch.dquote ∨ c = Ch.squote ∨ c = Ch.lbrack ∨ c = Ch.lbrace ∨ c = 0x74 ∨
      c = 0x66 ∨ c = 0x69 ∨ c = 0x6E ∨ c = Ch.plus ∨ c = Ch.minus ∨ isDec c = true := by
    by_contra hno
    simp only [not_or] at hno
    obtain ⟨hdq, hsq, ha, hi, ht, hf, hinf, hnan, hplus, hminus, hdec⟩ := hno
    have hlook : ¬ datetimeLookahead (c :: cs) = true := by
      intro hd
      simp only [datetimeLookahead, dateShape, timeShape, Bool.or_eq_true, Bool.and_eq_true] at hd
      have hfirst : digAt (c :: cs) 0 = true := by tauto
      exact hdec hfirst
    rw [valueDispatch, if_neg (not_or.mpr ⟨hdq, hsq⟩), if_neg ha, if_neg hi, if_neg ht, if_neg hf,
      if_neg (not_or.mpr ⟨hinf, hnan⟩), if_neg (not_or.mpr ⟨hplus, hminus⟩), if_neg hlook,
      if_neg hdec] at h
    exact absurd h failAt_ne_ok
  rcases hstart with rfl | rfl | rfl | rfl | rfl | rfl | rfl | rfl | rfl | rfl | hc
  all_goals try decide
  have hne : ∀ d, isDec d = false → c ≠ d := by
    rintro d hd rfl
    rw [hd] at hc
    exact absurd hc (by decide)
  have hws : isWs c = false := by
    have hsp := hne Ch.sp (by decide)
    have htab := hne Ch.tab (by decide)
    simp [isWs, hsp, htab]
  exact ⟨⟨hws, hne _ (by decide), hne _ (by decide), hne _ (by decide)⟩, hne _ (by decide),
    hne _ (by decide)⟩

/-- A value routine that reads the text of a value. -/
def ReadsValue (fc : FloatConv) (value : Bytes → Res Node) (v : Node) : Prop :=
  ∀ r, Ends r → value (emitValue fc v ++ r) = .ok (v.asValue, r)

lemma emitItems_cons (fc : FloatConv) (v : Node) (vs : List Node) :
    emitItems fc (v :: vs) = emitValue fc v ++ moreText (emitValue fc) vs := by
  have hmore : ∀ vs, emitMoreItems fc vs = moreText (emitValue fc) vs := by
    intro vs
    induction vs with
    | nil => rfl
    | cons v vs ih =>
      rw [emitMoreItems, ih]
      simp [moreText]
  rw [emitItems, hmore]

/-- An element whose value is read. -/
lemma arrayMember_reads {fc : FloatConv} {value : Bytes → Res Node}
    (hhead : ∀ r x, value r = .ok x → ∃ c cs, r = c :: cs ∧ IsSolid c ∧ c ≠ Ch.rbrack ∧
      c ≠ Ch.rbrace) {v : Node} (hv : ReadsValue fc value v) (acc : List Node) :
    MemberReads Ch.rbrack (arrayMember value) (emitValue fc v) acc (acc ++ [v.asValue]) := by
  refine ⟨fun r hr => by rw [arrayMember, hv r hr], fun r => ?_⟩
  -- the first byte does not depend on what follows
  obtain ⟨c, cs, htext, hsolid, hne, -⟩ := hhead _ _ (hv [] ends_nil)
  rw [List.append_nil] at htext
  exact ⟨c, cs ++ r, by rw [htext, List.cons_append], hsolid, hne⟩

/-- An array whose elements are read is read. -/
lemma arrayBody_text {fc : FloatConv} {value : Bytes → Res Node} (hok : ValueOk value)
    (hhead : ∀ r x, value r = .ok x → ∃ c cs, r = c :: cs ∧ IsSolid c ∧ c ≠ Ch.rbrack ∧
      c ≠ Ch.rbrace) {aot : Bool} {items : List Node} (h : ∀ v ∈ items, ReadsValue fc value v)
    (r : Bytes) :
    arrayBody value (emitValue fc (.array aot items) ++ r) =
      .ok ((Node.array aot items).asValue, r) := by
  have hmember : ∀ (acc : List Node) v vs, (∀ w ∈ v :: vs, ReadsValue fc value w) →
      MemberReads Ch.rbrack (arrayMember value) (emitValue fc v) acc (acc ++ [v.asValue]) ∧
        ∀ w ∈ vs, ReadsValue fc value w := fun acc v vs hvs =>
    ⟨arrayMember_reads hhead (hvs v (by simp)) acc, fun w hw => hvs w (by simp [hw])⟩
  have hfold : ∀ (vs acc : List Node),
      vs.foldl (fun acc v => acc ++ [v.asValue]) acc = acc ++ vs.map Node.asValue := by
    intro vs
    induction vs with
    | nil => simp
    | cons v vs ih => simp [ih]
  have hmembers :
      members Ch.rbrack "unterminated array" "expected ',' or ']'" (arrayMember value) []
      (emitItems fc items ++ Ch.rbrack :: r) = .ok (items.map Node.asValue, r) := by
    cases items with
    | nil => exact members_nil (.inl rfl) [] r
    | cons v vs =>
      have hloop := @members_more _ _ Ch.rbrack "unterminated array" "expected ',' or ']'"
        (arrayMember value) (emitValue fc) _ (fun _ vs => ∀ w ∈ vs, ReadsValue fc value w)
        (.inl rfl) (members_shrinks (arrayMember_ok hok)) hmember [] v vs h [] (.inl rfl) r
      rw [hfold] at hloop
      rw [emitItems_cons, List.append_assoc]
      simpa using hloop
  have htext : (emitValue fc (.array aot items) ++ r).drop 1 =
      emitItems fc items ++ Ch.rbrack :: r := by
    simp [emitValue]
  rw [arrayBody, htext, hmembers, Node.asValue, itemsAsValue_eq]

/-! ## Members -/

/-- A part of a key path starts with a quote or with a byte of a bare key. -/
lemma keyPart_head {r : Bytes} {x : Bytes × Bytes} (h : keyPart r = .ok x) :
    ∃ c cs, r = c :: cs ∧ (c = Ch.dquote ∨ c = Ch.squote ∨ isBareKey c = true) := by
  obtain _ | ⟨c, cs⟩ := r
  · simp [keyPart] at h
  rw [keyPart] at h
  split_ifs at h with hq hb
  · exact ⟨c, cs, rfl, by tauto⟩
  · exact ⟨c, cs, rfl, by tauto⟩
  · exact absurd h failAt_ne_ok

/-- A key starts with a solid byte that closes nothing and opens nothing. -/
lemma emitKey_head {key : Bytes} (hdel : Ch.del ∉ key) :
    ∃ c cs, emitKey key = c :: cs ∧ IsSolid c ∧ c ≠ Ch.rbrack ∧ c ≠ Ch.rbrace ∧ c ≠ Ch.lbrack := by
  obtain ⟨c, cs, htext, hc⟩ := keyPart_head (keyPart_emit (r := []) hdel (by simp))
  rw [List.append_nil] at htext
  refine ⟨c, cs, htext, ?_⟩
  rcases hc with rfl | rfl | hc
  · decide
  · decide
  · have hne : ∀ d, isBareKey d = false → c ≠ d := by
      rintro d hd rfl
      rw [hd] at hc
      exact absurd hc (by decide)
    exact ⟨⟨isWs_of_isBareKey hc, hne _ (by decide), hne _ (by decide), hne _ (by decide)⟩,
      hne _ (by decide), hne _ (by decide), hne _ (by decide)⟩

/-- No white space stands in front of a key. -/
lemma skipWs_emitKey {key : Bytes} (hdel : Ch.del ∉ key) (r : Bytes) :
    skipWs (emitKey key ++ r) = emitKey key ++ r := by
  obtain ⟨c, cs, htext, hsolid, -⟩ := emitKey_head hdel
  rw [htext, List.cons_append, skipWs_cons _ hsolid.1]

/-- One turn of `teptris_parse_key_path` at a key. -/
lemma keyPathTurn_emit {maxDepth : ℕ} {key : Bytes} (hdel : Ch.del ∉ key) {acc : List Key}
    (hdepth : acc.length + 1 ≤ maxDepth) {r : Bytes} (hr : ∀ c ∈ r.head?, isBareKey c = false) :
    keyPathTurn maxDepth (acc, emitKey key ++ r) =
      if (skipWs r).head? = some Ch.dot then
        .ok (.next (acc ++ [Key.ofBytes key], (skipWs r).drop 1))
      else .ok (.stop (⟨acc, Key.ofBytes key⟩, skipWs r)) := by
  simp only [keyPathTurn, skipWs_emitKey hdel, keyPart_emit hdel hr, if_neg (Nat.not_lt.mpr hdepth)]

/-- One turn of `teptris_parse_key_path` at a key behind too many others. -/
lemma keyPathTurn_deep {maxDepth : ℕ} {key : Bytes} (hdel : Ch.del ∉ key) {acc : List Key}
    (hdeep : maxDepth < acc.length + 1) {r : Bytes} (hr : ∀ c ∈ r.head?, isBareKey c = false) :
    keyPathTurn maxDepth (acc, emitKey key ++ r) = failAt r .errDepth "key path too deep" := by
  simp only [keyPathTurn, skipWs_emitKey hdel, keyPart_emit hdel hr, if_pos hdeep]

/-- The text of a pair. -/
def pairText (fc : FloatConv) (e : Key × Node) : Bytes :=
  emitKey e.1.bytes ++ eqText ++ emitValue fc e.2

/-- The general route of a pair, up to its value. -/
lemma keyvalGeneral_pair {fc : FloatConv} {maxDepth : ℕ} (hdepth : 0 < maxDepth)
    (value : Bytes → Res Node) {e : Key × Node} (hdel : Ch.del ∉ e.1.bytes) (t : Entries)
    {r cs : Bytes} {c : UInt8} (htext : emitValue fc e.2 ++ r = c :: cs) (hsolid : IsSolid c) :
    keyvalGeneral maxDepth value t (pairText fc e ++ r) =
      match value (emitValue fc e.2 ++ r) with
      | .error e => .error e
      | .ok (v, r) =>
        match insertDotted r ⟨[], e.1⟩ v [] t with
        | .error e => .error e
        | .ok t => .ok (t, r) := by
  have hpath : parseKeyPath maxDepth (emitKey e.1.bytes ++ (eqText ++ (emitValue fc e.2 ++ r))) =
      .ok (⟨[], e.1⟩, Ch.eq :: Ch.sp :: (emitValue fc e.2 ++ r)) := by
    refine loop_stop ?_
    rw [keyPathTurn_emit hdel hdepth (by simp; decide), Key.ofBytes_self]
    rfl
  have hvalue : skipWs (Ch.sp :: (emitValue fc e.2 ++ r)) = emitValue fc e.2 ++ r := by
    have hsp : skipWs (Ch.sp :: (emitValue fc e.2 ++ r)) = skipWs (emitValue fc e.2 ++ r) := rfl
    rw [hsp, htext, skipWs_cons _ hsolid.1]
  have hpair : pairText fc e ++ r =
      emitKey e.1.bytes ++ (eqText ++ (emitValue fc e.2 ++ r)) := by simp [pairText]
  have heq : skipWs (Ch.eq :: Ch.sp :: (emitValue fc e.2 ++ r)) =
      Ch.eq :: Ch.sp :: (emitValue fc e.2 ++ r) := skipWs_cons _ (by decide)
  rw [hpair, keyvalGeneral, hpath]
  simp only [heq, List.head?_cons, if_true, List.drop_succ_cons, List.drop_zero, hvalue] <;> rfl

/-- A pair whose value is read is inserted where its key is new. -/
lemma keyvalGeneral_text {fc : FloatConv} {maxDepth : ℕ} (hdepth : 0 < maxDepth)
    {value : Bytes → Res Node}
    (hhead : ∀ r x, value r = .ok x → ∃ c cs, r = c :: cs ∧ IsSolid c ∧ c ≠ Ch.rbrack ∧
      c ≠ Ch.rbrace) {e : Key × Node} (hdel : Ch.del ∉ e.1.bytes) (hv : ReadsValue fc value e.2)
    {t : Entries} (hnew : probe e.1 t = none) {r : Bytes} (hr : Ends r) :
    keyvalGeneral maxDepth value t (pairText fc e ++ r) =
      .ok (insert t e.1 e.2.asValue, r) := by
  have hread := hv r hr
  obtain ⟨c, cs, htext, hsolid, -⟩ := hhead _ _ hread
  rw [keyvalGeneral_pair hdepth value hdel t htext hsolid, hread]
  simp only [insertDotted, hnew]

lemma emitMembers_cons (fc : FloatConv) (e : Key × Node) (es : Entries) :
    emitMembers fc (e :: es) = pairText fc e ++ moreText (pairText fc) es := by
  have hmore : ∀ es, emitMoreMembers fc es = moreText (pairText fc) es := by
    intro es
    induction es with
    | nil => rfl
    | cons e es ih =>
      rw [emitMoreMembers, ih]
      simp [moreText, pairText]
  rw [emitMembers, hmore, pairText]

/-- The keys to come are distinct, and none is in the table yet. -/
def KeysNew (t es : Entries) : Prop :=
  (es.map Prod.fst).Nodup ∧ ∀ e ∈ es, probe e.1 t = none

lemma KeysNew.insert {t es : Entries} {e : Key × Node} (h : KeysNew t (e :: es)) (v : Node) :
    KeysNew (insert t e.1 v) es := by
  obtain ⟨hnodup, hnew⟩ := h
  rw [List.map_cons, List.nodup_cons] at hnodup
  refine ⟨hnodup.2, fun f hf => ?_⟩
  rw [probe_insert_ne, hnew f (by simp [hf])]
  rintro heq
  exact hnodup.1 (List.mem_map.mpr ⟨f, hf, heq.symm⟩)

/-- A member whose value is read. -/
lemma pair_reads {fc : FloatConv} {curPath : Bytes} {maxDepth : ℕ} (hdepth : 0 < maxDepth)
    {value : Bytes → Res Node}
    (hhead : ∀ r x, value r = .ok x → ∃ c cs, r = c :: cs ∧ IsSolid c ∧ c ≠ Ch.rbrack ∧
      c ≠ Ch.rbrace) {e : Key × Node} (hdel : Ch.del ∉ e.1.bytes)
    (hread : ReadsValue fc value e.2) {t : Entries} (hnew : probe e.1 t = none) :
    MemberReads Ch.rbrace (keyval curPath maxDepth value value) (pairText fc e) t
      (insert t e.1 e.2.asValue) := by
  refine ⟨fun r hr => ok_of_placed ?_, fun r => ?_⟩
  · rw [placed_keyval hdepth, keyvalGeneral_text hdepth hhead hdel hread hnew hr]
    rfl
  · obtain ⟨c, cs, htext, hsolid, -, hne, -⟩ := emitKey_head hdel
    exact ⟨c, _, by rw [pairText, htext]; rfl, hsolid, hne⟩

/-- An inline table whose members are read is read. -/
lemma inlineBody_text {fc : FloatConv} {curPath : Bytes} {maxDepth : ℕ} (hdepth : 0 < maxDepth)
    {value : Bytes → Res Node} (hok : ValueOk value)
    (hhead : ∀ r x, value r = .ok x → ∃ c cs, r = c :: cs ∧ IsSolid c ∧ c ≠ Ch.rbrack ∧
      c ≠ Ch.rbrace) {flag : TblFlag} {es : Entries} (hnodup : (es.map Prod.fst).Nodup)
    (hdel : ∀ e ∈ es, Ch.del ∉ e.1.bytes) (h : ∀ e ∈ es, ReadsValue fc value e.2) (r : Bytes) :
    inlineBody (keyval curPath maxDepth value value) (emitValue fc (.table flag es) ++ r) =
      .ok ((Node.table flag es).asValue, r) := by
  have hmember : ∀ (t : Entries) e es, KeysNew t (e :: es) ∧
      (∀ f ∈ e :: es, Ch.del ∉ f.1.bytes ∧ ReadsValue fc value f.2) →
      MemberReads Ch.rbrace (keyval curPath maxDepth value value) (pairText fc e) t
        (insert t e.1 e.2.asValue) ∧ KeysNew (insert t e.1 e.2.asValue) es ∧
          ∀ f ∈ es, Ch.del ∉ f.1.bytes ∧ ReadsValue fc value f.2 := by
    rintro t e es ⟨hkeys, hes⟩
    obtain ⟨hkdel, hread⟩ := hes e (by simp)
    exact ⟨pair_reads hdepth hhead hkdel hread (hkeys.2 e (by simp)), hkeys.insert _,
      fun f hf => hes f (by simp [hf])⟩
  have hfold : ∀ (es t : Entries), es.foldl (fun t e => insert t e.1 e.2.asValue) t =
      t ++ es.map fun e => (e.1, e.2.asValue) := by
    intro es
    induction es with
    | nil => simp
    | cons e es ih =>
      intro t
      rw [List.foldl_cons, ih]
      simp [insert]
  have hmembers : members Ch.rbrace "unterminated inline table" "expected ',' or '\x7d'"
      (keyval curPath maxDepth value value) [] (emitMembers fc es ++ Ch.rbrace :: r) =
      .ok (es.map fun e => (e.1, e.2.asValue), r) := by
    cases es with
    | nil => exact members_nil (.inr rfl) [] r
    | cons e es =>
      have hinit : KeysNew [] (e :: es) ∧
          ∀ f ∈ e :: es, Ch.del ∉ f.1.bytes ∧ ReadsValue fc value f.2 :=
        ⟨⟨hnodup, fun _ _ => rfl⟩, fun f hf => ⟨hdel f hf, h f hf⟩⟩
      have hloop := @members_more _ _ Ch.rbrace "unterminated inline table"
        "expected ',' or '\x7d'" (keyval curPath maxDepth value value) (pairText fc)
        (fun t e => insert t e.1 e.2.asValue) (fun t es => KeysNew t es ∧
          ∀ f ∈ es, Ch.del ∉ f.1.bytes ∧ ReadsValue fc value f.2) (.inr rfl)
        (members_shrinks (keyval_ok hok hok extends_isValue fun v hv => hv.1))
        hmember [] e es hinit [] (.inl rfl) r
      rw [hfold] at hloop
      rw [emitMembers_cons, List.append_assoc]
      simpa using hloop
  have htext : (emitValue fc (.table flag es) ++ r).drop 1 =
      emitMembers fc es ++ Ch.rbrace :: r := by
    simp [emitValue]
  rw [inlineBody, htext, hmembers, Node.asValue, entriesAsValue_eq]

/-! ## Values -/

/-- A scalar is read as itself. -/
lemma valueDispatch_scalar {fc : FloatConv} (array inline : Bytes → Res Node) {v : Node}
    (hreads : v.Reads fc) (hscalar : v.height = 0) :
    ReadsValue fc (valueDispatch fc array inline) v := by
  intro r hr
  cases v with
  | string s => exact valueDispatch_string fc array inline s hr
  | integer i => exact valueDispatch_integer fc array inline i hr
  | float f => exact valueDispatch_float fc array inline hreads hr
  | boolean b => exact valueDispatch_boolean fc array inline b
  | datetime kind dt => exact valueDispatch_datetime fc array inline hreads hr
  | array | table => exact absurd hscalar (Nat.succ_ne_zero _)

/-- `teptris_parse_value` is a dispatch at every depth. -/
lemma parseValue_head {cfg : Config} {curPath : Bytes} {levels : ℕ} {r : Bytes}
    {x : Node × Bytes} (h : parseValue cfg curPath levels r = .ok x) :
    ∃ c cs, r = c :: cs ∧ IsSolid c ∧ c ≠ Ch.rbrack ∧ c ≠ Ch.rbrace := by
  cases levels with
  | zero => exact valueDispatch_head h
  | succ levels => exact valueDispatch_head (parseValue_succ cfg curPath levels ▸ h)

/-- A value within the depth limit is read as itself, up to its flags and its NaNs. -/
theorem parseValue_emit (cfg : Config) (curPath : Bytes) {levels : ℕ} {v : Node} (hv : IsValue v)
    (hreads : v.Reads cfg.fc) (hheight : v.height ≤ levels) :
    ReadsValue cfg.fc (parseValue cfg curPath levels) v := by
  induction levels generalizing v with
  | zero => exact valueDispatch_scalar _ _ hreads (Nat.le_zero.mp hheight)
  | succ levels ih =>
    have hok := parseValue_ok cfg curPath levels
    have hhead : ∀ r x, parseValue cfg curPath levels r = .ok x →
        ∃ c cs, r = c :: cs ∧ IsSolid c ∧ c ≠ Ch.rbrack ∧ c ≠ Ch.rbrace :=
      fun _ _ => parseValue_head
    intro r hr
    rw [parseValue_succ]
    cases hv with
    | string | integer | float | boolean | datetime =>
      exact valueDispatch_scalar _ _ hreads rfl r hr
    | @array items hitems =>
      rw [Node.height] at hheight
      have hread : ∀ v ∈ items, ReadsValue cfg.fc (parseValue cfg curPath levels) v := by
        intro v hmem
        have := height_le_itemsHeight hmem
        exact ih (hitems v hmem) (itemsAll_iff.mp hreads v hmem) (by omega)
      exact arrayBody_text hok hhead hread r
    | @table flag es hflag hnodup hkey hes =>
      rw [Node.height] at hheight
      have hall := entriesAll_iff.mp hreads
      have hread : ∀ e ∈ es, ReadsValue cfg.fc (parseValue cfg curPath levels) e.2 := by
        intro e hmem
        have := height_le_entriesHeight hmem
        exact ih (hes e hmem) (hall e hmem).2 (by omega)
      exact inlineBody_text cfg.maxDepth_pos hok hhead hnodup (fun e he => (hall e he).1) hread r

/-! ## Values that nest too deep -/

/-- A value routine that does not accept the text of a value. -/
def RejectsValue (fc : FloatConv) (value : Bytes → Res Node) (v : Node) : Prop :=
  ∀ r x, Ends r → value (emitValue fc v ++ r) ≠ .ok x

/-- A container starts with a solid byte that closes nothing. -/
lemma emitValue_head (fc : FloatConv) {v : Node} (h : 0 < v.height) :
    ∃ c cs, emitValue fc v = c :: cs ∧ IsSolid c ∧ c ≠ Ch.rbrack ∧ c ≠ Ch.rbrace := by
  cases v with
  | array aot items => exact ⟨Ch.lbrack, _, rfl, by decide⟩
  | table flag es => exact ⟨Ch.lbrace, _, rfl, by decide⟩
  | _ => exact absurd h (Nat.lt_irrefl 0)

section Deep

variable {fc : FloatConv} {value : Bytes → Res Node} {levels : ℕ}

/-- An array with an element that is not accepted is not accepted. -/
lemma arrayBody_stuck (hok : ValueOk value)
    (hhead : ∀ r x, value r = .ok x → ∃ c cs, r = c :: cs ∧ IsSolid c ∧ c ≠ Ch.rbrack ∧
      c ≠ Ch.rbrace) {aot : Bool} {items : List Node}
    (h : ∀ v ∈ items, (levels < v.height → RejectsValue fc value v) ∧
      (¬ levels < v.height → ReadsValue fc value v))
    (hdeep : ∃ v ∈ items, levels < v.height) (r : Bytes) (x : Node × Bytes) :
    arrayBody value (emitValue fc (.array aot items) ++ r) ≠ .ok x := by
  let I : List Node → List Node → Prop := fun _ vs =>
    ∀ w ∈ vs, (levels < w.height → RejectsValue fc value w) ∧
      (¬ levels < w.height → ReadsValue fc value w)
  obtain ⟨v, vs, rfl⟩ : ∃ v vs, items = v :: vs := by
    obtain ⟨v, hv, -⟩ := hdeep
    exact List.exists_cons_of_ne_nil (List.ne_nil_of_mem hv)
  have hmember : ∀ (acc : List Node) v vs, I acc (v :: vs) →
      (levels < v.height → MemberFails Ch.rbrack (arrayMember value) (emitValue fc v) acc) ∧
      (¬ levels < v.height →
        MemberReads Ch.rbrack (arrayMember value) (emitValue fc v) acc (acc ++ [v.asValue]) ∧
        I (acc ++ [v.asValue]) vs) := by
    intro acc v vs hvs
    have hv := hvs v (by simp)
    refine ⟨fun hdeep => ⟨fun r hr x hx => ?_, fun r => ?_⟩, fun hread =>
      ⟨arrayMember_reads hhead (hv.2 hread) acc, fun w hw => hvs w (by simp [hw])⟩⟩
    · rw [arrayMember] at hx
      split at hx
      · cases hx
      next w r' hw => exact hv.1 hdeep r (w, r') hr hw
    · obtain ⟨c, cs, htext, hsolid, hne, -⟩ :=
        emitValue_head fc (Nat.lt_of_le_of_lt (Nat.zero_le _) hdeep)
      exact ⟨c, cs ++ r, by rw [htext, List.cons_append], hsolid, hne⟩
  have hstuck := @members_stuck _ _ Ch.rbrack "unterminated array" "expected ',' or ']'"
    (arrayMember value) (emitValue fc) _ I (.inl rfl) (members_shrinks (arrayMember_ok hok))
    (fun w => levels < w.height) hmember [] v vs h hdeep [] (.inl rfl) r
  have htext : (emitValue fc (.array aot (v :: vs)) ++ r).drop 1 =
      emitValue fc v ++ (moreText (emitValue fc) vs ++ Ch.rbrack :: r) := by
    simp [emitValue, emitItems_cons]
  rw [arrayBody, htext]
  rw [List.nil_append] at hstuck
  split
  · exact fun h => by cases h
  next items r' hitems => exact absurd hitems (hstuck (items, r'))

/-- A pair whose value is not accepted is not accepted. -/
lemma keyvalGeneral_stuck {maxDepth : ℕ} (hdepth : 0 < maxDepth) {e : Key × Node}
    (hdel : Ch.del ∉ e.1.bytes) (hdeep : 0 < e.2.height) (h : RejectsValue fc value e.2)
    (t : Entries) {r : Bytes} (hr : Ends r) (x : Entries × Bytes) :
    keyvalGeneral maxDepth value t (pairText fc e ++ r) ≠ .ok x := by
  obtain ⟨c, cs, htext, hsolid, -⟩ := emitValue_head fc hdeep
  have htext' : emitValue fc e.2 ++ r = c :: (cs ++ r) := by rw [htext, List.cons_append]
  rw [keyvalGeneral_pair hdepth value hdel t htext' hsolid]
  split
  · exact fun h => by cases h
  next w r' hw => exact absurd hw (h r (w, r') hr)

/-- A member whose value is not accepted. -/
lemma pair_fails {curPath : Bytes} {maxDepth : ℕ} (hdepth : 0 < maxDepth) {e : Key × Node}
    (hdel : Ch.del ∉ e.1.bytes) (hdeep : 0 < e.2.height) (h : RejectsValue fc value e.2)
    (t : Entries) :
    MemberFails Ch.rbrace (keyval curPath maxDepth value value) (pairText fc e) t := by
  refine ⟨fun r hr x hx => ?_, fun r => ?_⟩
  · have hplaced := @placed_keyval curPath maxDepth hdepth value t (pairText fc e ++ r)
    rw [hx] at hplaced
    exact keyvalGeneral_stuck hdepth hdel hdeep h t hr x (ok_of_placed hplaced.symm)
  · obtain ⟨c, cs, htext, hsolid, -, hne, -⟩ := emitKey_head hdel
    exact ⟨c, _, by rw [pairText, htext]; rfl, hsolid, hne⟩

/-- An inline table with a member that is not accepted is not accepted. -/
lemma inlineBody_stuck {curPath : Bytes} {maxDepth : ℕ} (hdepth : 0 < maxDepth)
    (hok : ValueOk value)
    (hhead : ∀ r x, value r = .ok x → ∃ c cs, r = c :: cs ∧ IsSolid c ∧ c ≠ Ch.rbrack ∧
      c ≠ Ch.rbrace) {flag : TblFlag} {es : Entries} (hnodup : (es.map Prod.fst).Nodup)
    (h : ∀ e ∈ es, Ch.del ∉ e.1.bytes ∧ (levels < e.2.height → RejectsValue fc value e.2) ∧
      (¬ levels < e.2.height → ReadsValue fc value e.2))
    (hdeep : ∃ e ∈ es, levels < e.2.height) (r : Bytes) (x : Node × Bytes) :
    inlineBody (keyval curPath maxDepth value value) (emitValue fc (.table flag es) ++ r) ≠
      .ok x := by
  let I : Entries → Entries → Prop := fun t es => KeysNew t es ∧
    ∀ e ∈ es, Ch.del ∉ e.1.bytes ∧ (levels < e.2.height → RejectsValue fc value e.2) ∧
      (¬ levels < e.2.height → ReadsValue fc value e.2)
  obtain ⟨e, es, rfl⟩ : ∃ e fs, es = e :: fs := by
    obtain ⟨e, he, -⟩ := hdeep
    exact List.exists_cons_of_ne_nil (List.ne_nil_of_mem he)
  have hmember : ∀ (t : Entries) e es, I t (e :: es) →
      (levels < e.2.height →
        MemberFails Ch.rbrace (keyval curPath maxDepth value value) (pairText fc e) t) ∧
      (¬ levels < e.2.height →
        MemberReads Ch.rbrace (keyval curPath maxDepth value value) (pairText fc e) t
          (insert t e.1 e.2.asValue) ∧ I (insert t e.1 e.2.asValue) es) := by
    rintro t e es ⟨hkeys, hes⟩
    obtain ⟨hdel, hreject, hread⟩ := hes e (by simp)
    refine ⟨fun hdeep => ?_, fun hshallow => ?_⟩
    · exact pair_fails hdepth hdel (Nat.lt_of_le_of_lt (Nat.zero_le _) hdeep) (hreject hdeep) t
    · exact ⟨pair_reads hdepth hhead hdel (hread hshallow) (hkeys.2 e (by simp)), hkeys.insert _,
        fun f hf => hes f (by simp [hf])⟩
  have hstuck := @members_stuck _ _ Ch.rbrace "unterminated inline table"
    "expected ',' or '\x7d'" (keyval curPath maxDepth value value) (pairText fc)
    (fun t e => insert t e.1 e.2.asValue) I (.inr rfl)
    (members_shrinks (keyval_ok hok hok extends_isValue fun v hv => hv.1))
    (fun e => levels < e.2.height) hmember [] e es ⟨⟨hnodup, fun _ _ => rfl⟩, h⟩ hdeep []
    (.inl rfl) r
  have htext : (emitValue fc (.table flag (e :: es)) ++ r).drop 1 =
      pairText fc e ++ (moreText (pairText fc) es ++ Ch.rbrace :: r) := by
    simp [emitValue, emitMembers_cons]
  rw [inlineBody, htext]
  rw [List.nil_append] at hstuck
  split
  · exact fun h => by cases h
  next t r' ht => exact absurd ht (hstuck (t, r'))

lemma exists_of_lt_itemsHeight {items : List Node} (h : levels < itemsHeight items) :
    ∃ v ∈ items, levels < v.height := by
  induction items with
  | nil => exact absurd h (Nat.not_lt_zero _)
  | cons v vs ih =>
    rw [itemsHeight] at h
    rcases Nat.lt_or_ge levels v.height with hv | hv
    · exact ⟨v, by simp, hv⟩
    · obtain ⟨w, hw, hlt⟩ := ih (by omega)
      exact ⟨w, by simp [hw], hlt⟩

lemma exists_of_lt_entriesHeight {es : Entries} (h : levels < entriesHeight es) :
    ∃ e ∈ es, levels < e.2.height := by
  induction es with
  | nil => exact absurd h (Nat.not_lt_zero _)
  | cons e es ih =>
    obtain ⟨k, v⟩ := e
    rw [entriesHeight] at h
    rcases Nat.lt_or_ge levels v.height with hv | hv
    · exact ⟨(k, v), by simp, hv⟩
    · obtain ⟨f, hf, hlt⟩ := ih (by omega)
      exact ⟨f, by simp [hf], hlt⟩

end Deep

/-- A value beyond the depth limit is not accepted. -/
theorem parseValue_deep (cfg : Config) (curPath : Bytes) {levels : ℕ} {v : Node} (hv : IsValue v)
    (hreads : v.Reads cfg.fc) (hdeep : levels < v.height) :
    RejectsValue cfg.fc (parseValue cfg curPath levels) v := by
  induction levels generalizing v with
  | zero =>
    intro r x hr
    cases v with
    | array aot items => exact failAt_ne_ok
    | table flag es => exact failAt_ne_ok
    | _ => exact absurd hdeep (Nat.lt_irrefl 0)
  | succ levels ih =>
    have hok := parseValue_ok cfg curPath levels
    have hhead : ∀ r x, parseValue cfg curPath levels r = .ok x →
        ∃ c cs, r = c :: cs ∧ IsSolid c ∧ c ≠ Ch.rbrack ∧ c ≠ Ch.rbrace :=
      fun _ _ => parseValue_head
    have hboth : ∀ w, IsValue w → w.Reads cfg.fc →
        (levels < w.height → RejectsValue cfg.fc (parseValue cfg curPath levels) w) ∧
        (¬ levels < w.height → ReadsValue cfg.fc (parseValue cfg curPath levels) w) :=
      fun w hw hreads => ⟨ih hw hreads,
        fun hshallow => parseValue_emit cfg curPath hw hreads (Nat.not_lt.mp hshallow)⟩
    intro r x hr
    rw [parseValue_succ]
    cases hv with
    | string | integer | float | boolean | datetime => exact absurd hdeep (Nat.not_lt_zero _)
    | @array items hitems =>
      rw [Node.height] at hdeep
      exact arrayBody_stuck hok hhead
        (fun v hmem => hboth v (hitems v hmem) (itemsAll_iff.mp hreads v hmem))
        (exists_of_lt_itemsHeight (Nat.lt_of_succ_lt_succ hdeep)) r x
    | @table flag es hflag hnodup hkey hes =>
      rw [Node.height] at hdeep
      have hall := entriesAll_iff.mp hreads
      exact inlineBody_stuck cfg.maxDepth_pos hok hhead hnodup
        (fun e hmem => ⟨(hall e hmem).1, hboth e.2 (hes e hmem) (hall e hmem).2⟩)
        (exists_of_lt_entriesHeight (Nat.lt_of_succ_lt_succ hdeep)) r x

end Teptris
