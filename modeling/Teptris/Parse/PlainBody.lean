import Teptris.Emit.Quoted

/-!
# Plain bodies block by block

`teptris_try_plain_body` over the vector kernels of `simd.h`: whatever the block width sees, a
body that is claimed is the body the scanners of `scalars.c` read, and a single-line string or
key is the one the scanners alone would read.
-/

namespace Teptris

open Loop

/-! ## The vector kernels -/

/-- The builds of `tep_simd_str_stop`. -/
inductive Simd where
  /-- `TEPTRIS_SIMD_NEON`. -/
  | neon
  /-- `TEPTRIS_SIMD_SSE2`. -/
  | sse2
  /-- The scalar loop alone. -/
  | scalar
deriving DecidableEq

/-- `_mm_subs_epu8` in one lane. -/
def subsU8 (a b : UInt8) : UInt8 := if a ≤ b then 0 else a - b

/-- The scalar test of `tep_simd_str_stop`. -/
def stopByte (q e c : UInt8) : Bool := c == q || c == e || isControl c

/-- The mask of one lane. -/
def Simd.lane (q e c : UInt8) : Simd → Bool
  | .neon =>
    ((c < 0x20) && !(c == Ch.tab)) || c == Ch.del || (q != 0 && c == q) || (e != 0 && c == e)
  | .sse2 =>
    (!(c == Ch.sp || c == Ch.tab) && subsU8 c 0x20 == 0) || c == Ch.del ||
      (q != 0 && c == q) || (e != 0 && c == e)
  | .scalar => stopByte q e c

/-- `tep_simd_str_stop`: blocks of 16 lanes while there are as many bytes, then the scalar tail. -/
def Simd.strStop (simd : Simd) (q e : UInt8) (p : Bytes) : ℕ :=
  if simd ≠ .scalar ∧ 16 ≤ p.length then
    let block := p.take 16
    if block.any (simd.lane q e) then block.findIdx (simd.lane q e)
    else 16 + simd.strStop q e (p.drop 16)
  else p.findIdx (stopByte q e)
termination_by p.length
decreasing_by
  simp only [List.length_drop]
  omega

/-- `teptris_try_plain_body`. -/
def Simd.tryPlainBody (simd : Simd) (close : UInt8) (r : Bytes) : Option Bytes :=
  if 32 ≤ r.length then
    let off := r.findIdx (· == close)
    if off = r.length then none
    else
      let esc := if close = Ch.dquote then Ch.bslash else 0
      if simd.strStop esc 0 (r.take off) < off then none else some (r.take off)
  else plainShort close r

/-- The masks of the kernels agree with the scalar test. -/
lemma Simd.lane_eq (simd : Simd) (q e c : UInt8) : simd.lane q e c = stopByte q e c := by
  have hneon :
      ∀ c : UInt8, ((decide (c < 0x20) && !(c == Ch.tab)) || c == Ch.del) = isControl c := by
    decide +kernel
  have hsse2 : ∀ c : UInt8, ((!(c == Ch.sp || c == Ch.tab) && subsU8 c 0x20 == 0) ||
      c == Ch.del) = isControl c := by
    decide +kernel
  have hzero : isControl 0 = true := by decide
  -- a disabled byte is a NUL, which is a control byte
  have hoff : ∀ x : UInt8, (isControl c || (x != 0 && c == x)) = (isControl c || c == x) := by
    intro x
    by_cases hx : x = 0
    · subst hx
      by_cases hc : c = 0
      · subst hc
        simp [hzero]
      · simp [hc]
    · have hne : (x != 0) = true := by simpa using hx
      rw [hne, Bool.true_and]
  cases simd with
  | scalar => rfl
  | neon =>
    rw [Simd.lane, hneon, hoff, Bool.or_right_comm, hoff, stopByte]
    cases isControl c <;> cases c == q <;> cases c == e <;> rfl
  | sse2 =>
    rw [Simd.lane, hsse2, hoff, Bool.or_right_comm, hoff, stopByte]
    cases isControl c <;> cases c == q <;> cases c == e <;> rfl

/-- The blocks find what one scan finds. -/
lemma Simd.strStop_eq (simd : Simd) (q e : UInt8) (p : Bytes) :
    simd.strStop q e p = simdStrStop q e p := by
  have hlane : simd.lane q e = stopByte q e := funext (simd.lane_eq q e)
  have hscan : ∀ p, simdStrStop q e p = p.findIdx (stopByte q e) := fun _ => rfl
  rw [hscan]
  fun_induction Simd.strStop simd q e p with
  | case1 p hlong block hany =>
    rw [hlane] at hany ⊢
    have hlt : block.findIdx (stopByte q e) < block.length := by
      rw [List.findIdx_lt_length]
      simpa using hany
    conv_rhs => rw [← List.take_append_drop 16 p, List.findIdx_append]
    rw [if_pos hlt]
  | case2 p hlong block hnone ih =>
    rw [hlane] at hnone
    have hlen : (p.take 16).length = 16 := List.length_take_of_le hlong.2
    have hall : (p.take 16).findIdx (stopByte q e) = (p.take 16).length := by
      rw [List.findIdx_eq_length]
      simpa using hnone
    have hpast : ¬ (p.take 16).findIdx (stopByte q e) < (p.take 16).length := by
      rw [hall]
      exact Nat.lt_irrefl _
    conv_rhs => rw [← List.take_append_drop 16 p, List.findIdx_append]
    rw [if_neg hpast, ih, hlen]
    exact Nat.add_comm _ _
  | case3 p hshort => rfl

/-- The lookahead does not depend on the kernel. -/
lemma Simd.tryPlainBody_eq (simd : Simd) (close : UInt8) (r : Bytes) :
    simd.tryPlainBody close r = Teptris.tryPlainBody close r := by
  rw [Simd.tryPlainBody, Teptris.tryPlainBody]
  simp only [Simd.strStop_eq]

/-! ## The scanners -/

/-- The scanner of a single-line body. -/
def scanSingle (basic : Bool) (r : Bytes) : Res Bytes :=
  if basic then scanBasic false r else scanLiteral false r

/-- The quote of a single-line body. -/
def quoteOf (basic : Bool) : UInt8 := if basic then Ch.dquote else Ch.squote

/-- `parse_string`, with a routine for single-line bodies. -/
def parseStringVia (single : Bool → Bytes → Res Bytes) (r : Bytes) : Res Node :=
  let basic : Bool := r.head? = some Ch.dquote
  let ml : Bool := r.head?.isSome && r[1]? = r.head? && r[2]? = r.head?
  let body :=
    if ml then
      let r := skipFirstNewline (r.drop 3)
      if basic then scanBasic true r else scanLiteral true r
    else single basic (r.drop 1)
  match body with
  | .error e => .error e
  | .ok (s, r) => .ok (.string s, r)

/-- `quoted_key`, with a routine for single-line bodies. -/
def quotedKeyVia (single : Bool → Bytes → Res Bytes) (r : Bytes) : Res Bytes :=
  single (r.head? = some Ch.dquote) (r.drop 1)

/-- A single-line body: the lookahead over a kernel, then the scanner. -/
def Simd.singleLineBody (simd : Simd) (basic : Bool) (r : Bytes) : Res Bytes :=
  match simd.tryPlainBody (quoteOf basic) r with
  | some content => .ok (content, r.drop (content.length + 1))
  | none => scanSingle basic r

/-- The routines of the parser are those over any kernel. -/
lemma Simd.singleLineBody_eq (simd : Simd) :
    simd.singleLineBody = Teptris.singleLineBody := by
  funext basic r
  rw [Simd.singleLineBody, simd.tryPlainBody_eq]
  rfl

lemma parseString_eq (simd : Simd) : parseString = parseStringVia simd.singleLineBody := by
  rw [simd.singleLineBody_eq]
  rfl

lemma quotedKey_eq (simd : Simd) : quotedKey = quotedKeyVia simd.singleLineBody := by
  rw [simd.singleLineBody_eq]
  rfl

/-- A body that is claimed is the body the scanner reads. -/
lemma scanSingle_of_plain {basic : Bool} {r content : Bytes}
    (h : Teptris.tryPlainBody (quoteOf basic) r = some content) :
    scanSingle basic r = .ok (content, r.drop (content.length + 1)) := by
  obtain ⟨hsplit, hclean⟩ := tryPlainBody_spec h
  have hself : content.flatMap (fun c => [c]) = content := by simp
  generalize r.drop (content.length + 1) = rest at hsplit ⊢
  rw [hsplit]
  cases basic with
  | true =>
    have hwritten : ∀ c ∈ content, IsWritten Ch.dquote (some (scanEscape false)) c [c] :=
      fun c hc => .plain (hclean c hc).1 (fun _ => (hclean c hc).2.2 rfl) (hclean c hc).2.1
    have hscan := scan_written (by decide) (by decide) (escapeOk_scanEscape false) hwritten [] rest
    rw [hself] at hscan
    exact hscan
  | false =>
    have hwritten : ∀ c ∈ content, IsWritten Ch.squote none c [c] :=
      fun c hc => .plain (hclean c hc).1 (fun hsome => by simp at hsome) (hclean c hc).2.1
    have hscan := scan_written (by decide) (by decide) escapeOk_none hwritten [] rest
    rw [hself] at hscan
    exact hscan

/-- Over every kernel, a body that `teptris_try_plain_body` claims is read by the scanner with the
same bytes up to the same position; and single-line bodies, strings and quoted keys are those the
scanners alone read. -/
theorem plain_body_agrees (simd : Simd) :
    (∀ basic r content, simd.tryPlainBody (quoteOf basic) r = some content →
      scanSingle basic r = .ok (content, r.drop (content.length + 1))) ∧
      parseStringVia simd.singleLineBody = parseStringVia scanSingle ∧
      quotedKeyVia simd.singleLineBody = quotedKeyVia scanSingle := by
  have hclaimed : ∀ basic r content, simd.tryPlainBody (quoteOf basic) r = some content →
      scanSingle basic r = .ok (content, r.drop (content.length + 1)) := by
    intro basic r content h
    rw [simd.tryPlainBody_eq] at h
    exact scanSingle_of_plain h
  have hsame : simd.singleLineBody = scanSingle := by
    funext basic r
    rw [Simd.singleLineBody]
    cases h : simd.tryPlainBody (quoteOf basic) r with
    | none => rfl
    | some content => exact (hclaimed basic r content h).symm
  exact ⟨hclaimed, by rw [hsame], by rw [hsame]⟩

end Teptris
