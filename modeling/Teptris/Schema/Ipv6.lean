import Teptris.Dom.Byte
import Teptris.Library.InternetAddress
import Teptris.Library.Runs

/-!
# The `ipv6` format

`check_ipv6` of `formats.c` against the text forms of RFC 4291: it cuts the text at its colons and
looks at the empty pieces.  Two of them next to each other are the compression at an end of the
address, but the check does not ask that they stand there.
-/

namespace Teptris

open Inet (IsOctet IsQuad IsGroup Pieces joined IsIpv6)

/-! ## The checks -/

/-- A number of `check_ipv4`, with what follows it. -/
def ipv4Group (s : Bytes) : Option Bytes :=
  let ds := s.takeWhile isDec
  if ds.length < 1 ∨ 3 < ds.length then none
  else if 1 < ds.length ∧ ds.head? = some Ch.zero then none
  else if 255 < ds.foldl (fun v c => v * 10 + (c.toNat - Ch.zero.toNat)) 0 then none
  else some (s.dropWhile isDec)

/-- The numbers behind the first, with their dots. -/
def ipv4Rest : ℕ → Bytes → Bool
  | 0, s => s = []
  | g + 1, s =>
    match s with
    | [] => false
    | c :: s => c = Ch.dot && (ipv4Group s).any (ipv4Rest g)

/-- `check_ipv4`. -/
def checkIpv4 (s : Bytes) : Bool := (ipv4Group s).any (ipv4Rest 3)

/-- `group_ok`. -/
def groupOk (t : Bytes) : Bool := ¬ (t.length < 1 ∨ 4 < t.length) ∧ t.all isHex

/-- The first loop of `check_ipv6`: `tok` with `tl`, at most nine of them; `cur` is the piece being
read and `n` the number of those before it. -/
def ipv6Tokens (cur : Bytes) (n : ℕ) : Bytes → Option (List Bytes)
  | [] => if 9 ≤ n then none else some [cur]
  | c :: s =>
    if c = Ch.colon then if 9 ≤ n then none else (ipv6Tokens [] (n + 1) s).map (cur :: ·)
    else ipv6Tokens (cur ++ [c]) n s

/-- `empty_pos`: the indices of the empty pieces, the first piece having index `i`. -/
def emptyPos (i : ℕ) : List Bytes → List ℕ
  | [] => []
  | t :: ts => if t = [] then i :: emptyPos (i + 1) ts else emptyPos (i + 1) ts

/-- The last loop of `check_ipv6`: the number of groups. -/
def ipv6Groups (v4 : Bool) : List Bytes → Option ℕ
  | [] => some 0
  | t :: ts =>
    if t = [] then ipv6Groups v4 ts
    else if ts = [] ∧ v4 then if checkIpv4 t then (ipv6Groups v4 ts).map (· + 2) else none
    else if groupOk t then (ipv6Groups v4 ts).map (· + 1)
    else none

/-- The last piece has a dot in it. -/
def endsDotted (ts : List Bytes) : Bool := (ts.getLast?.getD []).contains Ch.dot

/-- What `check_ipv6` asks of the number and the places of the empty pieces. -/
def emptiesOk (ts : List Bytes) : Bool :=
  match emptyPos 0 ts with
  | [] => ts.length = if endsDotted ts then 7 else 8
  | [p] => ¬ (p = 0 ∨ p = ts.length - 1)
  | [p, q] => q = p + 1
  | [_, _, _] => ts.length = 3
  | _ => false

/-- `check_ipv6`. -/
def checkIpv6 (s : Bytes) : Bool :=
  match ipv6Tokens [] 0 s with
  | none => false
  | some ts =>
    emptiesOk ts &&
      match ipv6Groups (endsDotted ts) ts with
      | none => false
      | some groups => if emptyPos 0 ts = [] then groups = 8 else groups ≤ 7

/-! ## Dotted quads -/

lemma isDec_iff (c : UInt8) : isDec c = true ↔ Inet.IsDigit c := by
  simp [isDec, Inet.IsDigit]

lemma isHex_iff (c : UInt8) : isHex c = true ↔ Inet.IsHexDigit c := by
  simp [isHex, Inet.IsHexDigit, isDec_iff, or_assoc]

lemma isOctet_pair {a b : UInt8} (ha : Inet.IsDigit a) (hb : Inet.IsDigit b) :
    IsOctet [a, b] ↔ a ≠ 0x30 := by
  constructor
  · intro h
    cases h with
    | two ha _ => exact fun h => absurd ha.1 (by rw [h]; decide)
  · intro h
    refine .two ⟨?_, ha.2⟩ hb
    have h1 := ha.1
    rw [UInt8.le_iff_toNat_le] at h1 ⊢
    rw [Ne, ← UInt8.toNat_inj] at h
    change 48 ≤ _ at h1
    change 49 ≤ _
    change ¬ _ = 48 at h
    omega

lemma isOctet_triple {a b c : UInt8} (ha : Inet.IsDigit a) (hb : Inet.IsDigit b)
    (hc : Inet.IsDigit c) : IsOctet [a, b, c] ↔ a ≠ 0x30 ∧
      ((a.toNat - 48) * 10 + (b.toNat - 48)) * 10 + (c.toNat - 48) ≤ 255 := by
  have hdig : ∀ {c : UInt8}, Inet.IsDigit c → 48 ≤ c.toNat ∧ c.toNat ≤ 57 := fun h =>
    ⟨UInt8.le_iff_toNat_le.1 h.1, UInt8.le_iff_toNat_le.1 h.2⟩
  have hla := hdig ha
  have hlb := hdig hb
  have hlc := hdig hc
  constructor
  · intro h
    cases h with
    | three => exact ⟨by decide, by simp only [UInt8.reduceToNat]; omega⟩
    | high hb _ =>
      have := UInt8.le_iff_toNat_le.1 hb.2
      exact ⟨by decide, by simp only [UInt8.reduceToNat] at this ⊢; omega⟩
    | top hc =>
      have := UInt8.le_iff_toNat_le.1 hc.2
      exact ⟨by decide, by simp only [UInt8.reduceToNat] at this ⊢; omega⟩
  · rintro ⟨hne, hle⟩
    have hne : a.toNat ≠ 48 := fun h => hne (UInt8.toNat_inj.1 h)
    rcases (by omega : a.toNat = 49 ∨ a.toNat = 50) with h | h
    · obtain rfl : a = 0x31 := UInt8.toNat_inj.1 h
      exact .three hb hc
    · obtain rfl : a = 0x32 := UInt8.toNat_inj.1 h
      by_cases h5 : b.toNat = 53
      · obtain rfl : b = 0x35 := UInt8.toNat_inj.1 h5
        refine .top ⟨hc.1, UInt8.le_iff_toNat_le.2 ?_⟩
        change _ ≤ 53
        simp only [UInt8.reduceToNat] at hle
        omega
      · refine .high ⟨hb.1, UInt8.le_iff_toNat_le.2 ?_⟩ hc
        change _ ≤ 52
        simp only [UInt8.reduceToNat] at hle
        omega

/-- One to three digits without a leading zero that come to 255 at most are an octet. -/
lemma isOctet_iff {ds : Bytes} (hds : ∀ c ∈ ds, isDec c = true) :
    (¬ (ds.length < 1 ∨ 3 < ds.length) ∧ ¬ (1 < ds.length ∧ ds.head? = some Ch.zero) ∧
      ¬ 255 < ds.foldl (fun v c => v * 10 + (c.toNat - Ch.zero.toNat)) 0) ↔ IsOctet ds := by
  match ds with
  | [] => exact ⟨fun h => absurd h.1 (by simp), fun h => nomatch h⟩
  | [a] =>
    have ha : Inet.IsDigit a := (isDec_iff a).1 (hds a (by simp))
    have := UInt8.le_iff_toNat_le.1 ha.2
    refine ⟨fun _ => .one ha, fun _ => ⟨by simp, by simp, ?_⟩⟩
    simp [Ch.zero] at this ⊢
    omega
  | [a, b] =>
    have ha : Inet.IsDigit a := (isDec_iff a).1 (hds a (by simp))
    have hb : Inet.IsDigit b := (isDec_iff b).1 (hds b (by simp))
    have hla := UInt8.le_iff_toNat_le.1 ha.2
    have hlb := UInt8.le_iff_toNat_le.1 hb.2
    rw [isOctet_pair ha hb]
    simp [Ch.zero] at hla hlb ⊢
    omega
  | [a, b, c] =>
    have ha : Inet.IsDigit a := (isDec_iff a).1 (hds a (by simp))
    have hb : Inet.IsDigit b := (isDec_iff b).1 (hds b (by simp))
    have hc : Inet.IsDigit c := (isDec_iff c).1 (hds c (by simp))
    rw [isOctet_triple ha hb hc]
    simp [Ch.zero]
  | a :: b :: c :: d :: ds =>
    exact ⟨fun h => absurd h.1 (by simp), fun h => nomatch h⟩

/-- A number is read up to the first byte that is no digit. -/
lemma ipv4Group_eq_some {s r : Bytes} : ipv4Group s = some r ↔
    ∃ o, IsOctet o ∧ s = o ++ r ∧ ∀ c ∈ r.head?, isDec c = false := by
  have hds : ∀ c ∈ s.takeWhile isDec, isDec c = true := fun c hc =>
    (List.all_eq_true.1 (List.all_takeWhile (p := isDec) (l := s))) c hc
  have hread : ipv4Group s = some r ↔ IsOctet (s.takeWhile isDec) ∧ s.dropWhile isDec = r := by
    rw [← isOctet_iff hds, ipv4Group]
    split_ifs <;> simp_all
  rw [hread]
  exact Runs.cut_iff fun o ho c hc => (isDec_iff c).2 (ho.digits.2 c hc)

lemma ipv4Rest_zero (s : Bytes) : ipv4Rest 0 s = true ↔ s = [] := by simp [ipv4Rest]

/-- What follows a number is the dots and numbers that are still to come. -/
lemma ipv4Rest_succ {g : ℕ} {s : Bytes} : ipv4Rest (g + 1) s = true ↔
    ∃ o r, IsOctet o ∧ s = Ch.dot :: (o ++ r) ∧ (∀ c ∈ r.head?, isDec c = false) ∧
      ipv4Rest g r = true := by
  cases s with
  | nil => simp [ipv4Rest]
  | cons c s =>
    simp only [ipv4Rest, Bool.and_eq_true, decide_eq_true_eq, Option.any_eq_true,
      ipv4Group_eq_some, List.cons.injEq]
    constructor
    · rintro ⟨rfl, r, ⟨o, ho, rfl, hr⟩, hrest⟩
      exact ⟨o, r, ho, ⟨rfl, rfl⟩, hr, hrest⟩
    · rintro ⟨o, r, ho, ⟨rfl, rfl⟩, hr, hrest⟩
      exact ⟨rfl, r, ⟨o, ho, rfl, hr⟩, hrest⟩

/-- `check_ipv4` accepts the dotted quads. -/
lemma checkIpv4_iff (s : Bytes) : checkIpv4 s = true ↔ IsQuad s := by
  have hdot : ∀ t : Bytes, ∀ c ∈ (Ch.dot :: t).head?, isDec c = false := by simp; decide
  change (ipv4Group s).any (ipv4Rest (0 + 1 + 1 + 1)) = true ↔ _
  simp only [Option.any_eq_true, ipv4Group_eq_some, ipv4Rest_succ, ipv4Rest_zero]
  constructor
  · rintro ⟨_, ⟨a, ha, rfl, -⟩, b, _, hb, rfl, -, c, _, hc, rfl, -, d, _, hd, rfl, -, rfl⟩
    exact ⟨a, b, c, d, ha, hb, hc, hd, by simp⟩
  · rintro ⟨a, b, c, d, ha, hb, hc, hd, rfl⟩
    exact ⟨_, ⟨a, ha, rfl, hdot _⟩, b, _, hb, rfl, hdot _, c, _, hc, rfl, hdot _, d, [], hd,
      by simp, by simp, rfl⟩

/-! ## Pieces -/

/-- The pieces are those between the colons, and there are nine at most. -/
lemma ipv6Tokens_eq (s cur : Bytes) (n : ℕ) : ipv6Tokens cur n s =
    if n + (s.splitOn Ch.colon).length ≤ 9 then some ((s.splitOn Ch.colon).modifyHead (cur ++ ·))
    else none := by
  induction s generalizing cur n with
  | nil =>
    rw [ipv6Tokens, List.splitOn_nil]
    by_cases hn : 9 ≤ n
    · rw [if_pos hn, if_neg (by rw [List.length_singleton]; omega)]
    · rw [if_neg hn, if_pos (by rw [List.length_singleton]; omega)]
      simp
  | cons c s ih =>
    have hpos : 0 < (s.splitOn Ch.colon).length := List.length_pos_iff.2 (List.splitOn_ne_nil _ _)
    rw [ipv6Tokens, List.splitOn_cons_eq_if_modifyHead]
    by_cases hc : c = Ch.colon
    · have hmod : (s.splitOn Ch.colon).modifyHead ([] ++ ·) = s.splitOn Ch.colon := by
        cases s.splitOn Ch.colon <;> rfl
      simp only [hc, if_true, beq_self_eq_true, ih, hmod, List.length_cons]
      by_cases hn : n + ((s.splitOn Ch.colon).length + 1) ≤ 9
      · rw [if_pos hn, if_neg (by omega), if_pos (by omega)]
        simp
      · rw [if_neg hn, if_neg (show ¬ n + 1 + (s.splitOn Ch.colon).length ≤ 9 by omega)]
        simp
    · simp only [hc, if_false, beq_iff_eq, ih, List.length_modifyHead]
      cases s.splitOn Ch.colon <;> simp

/-- The index of the first empty piece, and the indices behind it. -/
lemma emptyPos_split {l r : List Bytes} (hl : [] ∉ l) (i : ℕ) :
    emptyPos i (l ++ [] :: r) = (i + l.length) :: emptyPos (i + l.length + 1) r := by
  induction l generalizing i with
  | nil => rfl
  | cons t l ih =>
    rw [List.mem_cons, not_or] at hl
    rw [List.cons_append, emptyPos, if_neg (Ne.symm hl.1), ih hl.2, List.length_cons]
    rw [show i + 1 + l.length = i + (l.length + 1) by omega]

lemma emptyPos_eq_nil {i : ℕ} {ts : List Bytes} : emptyPos i ts = [] ↔ [] ∉ ts := by
  induction ts generalizing i with
  | nil => simp [emptyPos]
  | cons t ts ih =>
    by_cases ht : t = []
    · simp [emptyPos, ht]
    · simp [emptyPos, ht, ih, Ne.symm ht]

/-- Where there is an empty piece there is a first one. -/
lemma exists_split_of_emptyPos {i p : ℕ} {ps : List ℕ} {ts : List Bytes}
    (h : emptyPos i ts = p :: ps) : ∃ l r, [] ∉ l ∧ ts = l ++ [] :: r ∧ p = i + l.length ∧
      ps = emptyPos (p + 1) r := by
  have hmem : [] ∈ ts := by
    by_contra hno
    rw [emptyPos_eq_nil.2 hno] at h
    exact absurd h (by simp)
  obtain ⟨l, r, rfl, hl⟩ := List.eq_append_cons_of_mem hmem
  rw [emptyPos_split hl, List.cons.injEq] at h
  obtain ⟨rfl, rfl⟩ := h
  exact ⟨l, r, hl, rfl, rfl, rfl⟩

lemma groupOk_iff (t : Bytes) : groupOk t = true ↔ IsGroup t := by
  simp [groupOk, IsGroup, isHex_iff, and_assoc]

lemma endsDotted_append {l r : List Bytes} (hr : r ≠ []) : endsDotted (l ++ r) = endsDotted r := by
  rw [endsDotted, endsDotted, List.getLast?_append_of_ne_nil _ hr]

lemma endsDotted_cons {t t' : Bytes} {ts : List Bytes} :
    endsDotted (t :: t' :: ts) = endsDotted (t' :: ts) :=
  endsDotted_append (l := [t]) (by simp)

/-- The pieces in front of others are groups. -/
lemma ipv6Groups_append {v : Bool} {l r : List Bytes} {k : ℕ} (hl : [] ∉ l) (hr : r ≠ []) :
    ipv6Groups v (l ++ r) = some k ↔
      (∀ t ∈ l, IsGroup t) ∧ ∃ j, ipv6Groups v r = some j ∧ l.length + j = k := by
  induction l generalizing k with
  | nil => simp
  | cons t l ih =>
    rw [List.mem_cons, not_or] at hl
    have hne : l ++ r ≠ [] := by simp [hr]
    rw [List.cons_append, ipv6Groups, if_neg (Ne.symm hl.1), if_neg (by simp [hne])]
    rw [List.forall_mem_cons, ← groupOk_iff t]
    by_cases ht : groupOk t = true
    · rw [if_pos ht, Option.map_eq_some_iff]
      simp only [ht, true_and, ih hl.2, List.length_cons]
      constructor
      · rintro ⟨j, ⟨hg, m, hm, rfl⟩, rfl⟩
        exact ⟨hg, m, hm, by omega⟩
      · rintro ⟨hg, m, hm, rfl⟩
        exact ⟨l.length + m, ⟨hg, m, hm, rfl⟩, by omega⟩
    · simp [ht]

/-- Pieces none of which is empty are counted as they stand for groups. -/
lemma ipv6Groups_eq_some {ts : List Bytes} {k : ℕ} (hts : [] ∉ ts) :
    ipv6Groups (endsDotted ts) ts = some k ↔ Pieces ts k := by
  induction ts generalizing k with
  | nil =>
    rw [ipv6Groups, Option.some.injEq]
    exact ⟨fun h => h ▸ .nil, fun h => by cases h; rfl⟩
  | cons t ts ih =>
    rw [List.mem_cons, not_or] at hts
    rw [ipv6Groups, if_neg (Ne.symm hts.1)]
    cases ts with
    | nil =>
      have hdot : endsDotted [t] = true ↔ Ch.dot ∈ t := by simp [endsDotted]
      by_cases hd : Ch.dot ∈ t
      · rw [if_pos ⟨rfl, hdot.2 hd⟩, ipv6Groups]
        constructor
        · intro h
          split_ifs at h with hq
          cases h
          exact .quad ((checkIpv4_iff t).1 hq)
        · intro h
          cases h with
          | quad hq => rw [if_pos ((checkIpv4_iff t).2 hq), Option.map_some]
          | group hg _ => exact absurd hd hg.no_dot
      · rw [if_neg (fun h => hd (hdot.1 h.2)), ipv6Groups]
        constructor
        · intro h
          split_ifs at h with hg
          cases h
          exact .group ((groupOk_iff t).1 hg) .nil
        · intro h
          cases h with
          | quad hq => exact absurd hq.dotted hd
          | group hg hs =>
            cases hs
            rw [if_pos ((groupOk_iff t).2 hg), Option.map_some]
    | cons t' ts =>
      rw [if_neg (by simp), endsDotted_cons]
      constructor
      · intro h
        split_ifs at h with hg
        obtain ⟨j, hj, rfl⟩ := Option.map_eq_some_iff.1 h
        exact .group ((groupOk_iff t).1 hg) ((ih hts.2).1 hj)
      · intro h
        cases h with
        | group hg hs => rw [if_pos ((groupOk_iff t).2 hg), (ih hts.2).2 hs, Option.map_some]

/-- A dotted quad at the end is one piece for two groups. -/
lemma pieces_length {ts : List Bytes} {k : ℕ} (h : Pieces ts k) :
    k = ts.length + if endsDotted ts then 1 else 0 := by
  induction h with
  | nil => simp [endsDotted]
  | quad h => simp [endsDotted, h.dotted]
  | @group t ts k hg hs ih =>
    cases ts with
    | nil =>
      cases hs
      simp [endsDotted, hg.no_dot]
    | cons t' ts => rw [ih, endsDotted_cons, List.length_cons, Nat.add_right_comm]; rfl


/-! ## Addresses -/

lemma emptyPos_double {l r : List Bytes} (hl : [] ∉ l) (hr : [] ∉ r) :
    emptyPos 0 (l ++ [[], []] ++ r) = [l.length, l.length + 1] := by
  rw [List.append_assoc, List.cons_append, emptyPos_split hl, List.cons_append,
    List.nil_append, emptyPos, if_pos rfl, emptyPos_eq_nil.2 hr, Nat.zero_add]

lemma emptyPos_inner {l r : List Bytes} (hl : [] ∉ l) (hr : [] ∉ r) :
    emptyPos 0 (l ++ [[]] ++ r) = [l.length] := by
  rw [List.append_assoc, List.singleton_append, emptyPos_split hl, emptyPos_eq_nil.2 hr,
    Nat.zero_add]

/-- The two sides of a compression: at most seven groups. -/
def Sides (l r : List Bytes) : Prop :=
  (∀ t ∈ l, IsGroup t) ∧ ∃ k, Pieces r k ∧ l.length + k ≤ 7

lemma Sides.ne_nil {l r : List Bytes} (h : Sides l r) : [] ∉ l ∧ [] ∉ r := by
  obtain ⟨hl, k, hr, -⟩ := h
  exact ⟨fun hm => (hl _ hm).1 rfl, hr.ne_nil⟩

lemma Sides.no_colon {l r : List Bytes} (h : Sides l r) :
    (∀ t ∈ l, Ch.colon ∉ t) ∧ ∀ t ∈ r, Ch.colon ∉ t := by
  obtain ⟨hl, k, hr, -⟩ := h
  exact ⟨fun t ht => (hl t ht).no_colon, hr.no_colon⟩

lemma Sides.length_le {l r : List Bytes} (h : Sides l r) : l.length + r.length ≤ 7 := by
  obtain ⟨-, k, hr, hk⟩ := h
  have := hr.length_le
  omega

/-- The groups around a compression, however many empty pieces stand for it. -/
lemma ipv6Groups_sides {l r es : List Bytes} (hl : [] ∉ l) (hr : [] ∉ r)
    (hes : ∀ e ∈ es, e = []) (hne : es ≠ []) :
    (∃ k, ipv6Groups (endsDotted (l ++ es ++ r)) (l ++ es ++ r) = some k ∧ k ≤ 7) ↔
      Sides l r := by
  have hskip : ∀ v, ipv6Groups v (es ++ r) = ipv6Groups v r := by
    intro v
    clear hne
    induction es with
    | nil => rfl
    | cons e es ih =>
      rw [List.cons_append, ipv6Groups, if_pos (hes e (by simp)),
        ih fun e he => hes e (List.mem_cons_of_mem _ he)]
  have hdot : ipv6Groups (endsDotted (l ++ es ++ r)) r = ipv6Groups (endsDotted r) r := by
    by_cases hr0 : r = []
    · simp [hr0, ipv6Groups]
    · rw [endsDotted_append hr0]
  rw [List.append_assoc] at hdot ⊢
  simp only [ipv6Groups_append hl (List.append_ne_nil_of_left_ne_nil hne r), hskip, hdot,
    ipv6Groups_eq_some hr, Sides]
  constructor
  · rintro ⟨k, ⟨hg, j, hj, rfl⟩, hk⟩
    exact ⟨hg, j, hj, hk⟩
  · rintro ⟨hg, j, hj, hk⟩
    exact ⟨_, ⟨hg, j, hj, rfl⟩, hk⟩

/-- The pieces the checks accept. -/
inductive AcceptedPieces : List Bytes → Prop
  /-- Eight groups. -/
  | full {ts : List Bytes} (h : Pieces ts 8) : AcceptedPieces ts
  /-- One empty piece between others. -/
  | inner {l r : List Bytes} (h : Sides l r) (hl : l ≠ []) (hr : r ≠ []) :
      AcceptedPieces (l ++ [[]] ++ r)
  /-- Two empty pieces, wherever they stand. -/
  | double {l r : List Bytes} (h : Sides l r) : AcceptedPieces (l ++ [[], []] ++ r)
  /-- Three empty pieces. -/
  | triple : AcceptedPieces [[], [], []]

/-- The checks on the pieces. -/
def piecesOk (ts : List Bytes) : Bool :=
  emptiesOk ts &&
    match ipv6Groups (endsDotted ts) ts with
    | none => false
    | some groups => if emptyPos 0 ts = [] then groups = 8 else groups ≤ 7

lemma groups_le_iff {ts : List Bytes} (h : emptyPos 0 ts ≠ []) : piecesOk ts = true ↔
    emptiesOk ts = true ∧ ∃ k, ipv6Groups (endsDotted ts) ts = some k ∧ k ≤ 7 := by
  rw [piecesOk, Bool.and_eq_true]
  cases ipv6Groups (endsDotted ts) ts <;> simp [h]

lemma piecesOk_full {ts : List Bytes} (hts : [] ∉ ts) : piecesOk ts = true ↔ Pieces ts 8 := by
  have hgroups := fun k => @ipv6Groups_eq_some ts k hts
  rw [piecesOk, emptiesOk, emptyPos_eq_nil.2 hts, Bool.and_eq_true]
  constructor
  · rintro ⟨-, h⟩
    cases hg : ipv6Groups (endsDotted ts) ts with
    | none => simp [hg] at h
    | some k =>
      obtain rfl : k = 8 := by simpa [hg] using h
      exact (hgroups 8).1 hg
  · intro h
    have hlen := pieces_length h
    rw [(hgroups 8).2 h]
    refine ⟨decide_eq_true ?_, by simp⟩
    split_ifs at hlen ⊢ <;> omega

lemma piecesOk_inner {l r : List Bytes} (hl : [] ∉ l) (hr : [] ∉ r) :
    piecesOk (l ++ [[]] ++ r) = true ↔ Sides l r ∧ l ≠ [] ∧ r ≠ [] := by
  have hpos := emptyPos_inner hl hr
  rw [groups_le_iff (by rw [hpos]; simp), ipv6Groups_sides hl hr (by simp) (by simp), emptiesOk,
    hpos, and_comm]
  have hlen : (l ++ [[]] ++ r).length = l.length + 1 + r.length := by simp; omega
  simp only [hlen, decide_eq_true_eq, not_or, ← List.length_pos_iff]
  refine and_congr_right fun _ => ?_
  omega

lemma piecesOk_double {l r : List Bytes} (hl : [] ∉ l) (hr : [] ∉ r) :
    piecesOk (l ++ [[], []] ++ r) = true ↔ Sides l r := by
  have hpos := emptyPos_double hl hr
  rw [groups_le_iff (by rw [hpos]; simp), ipv6Groups_sides hl hr (by simp) (by simp), emptiesOk,
    hpos]
  simp

/-- The checks accept these pieces and no others. -/
lemma piecesOk_iff (ts : List Bytes) : piecesOk ts = true ↔ AcceptedPieces ts := by
  constructor
  · intro h
    by_cases hts : [] ∈ ts
    · obtain ⟨p, ps, hpos⟩ :=
        List.exists_cons_of_ne_nil (mt (@emptyPos_eq_nil 0 ts).1 (not_not.2 hts))
      obtain ⟨l, r, hl, rfl, rfl, hps⟩ := exists_split_of_emptyPos hpos
      have hempties : emptiesOk (l ++ [] :: r) = true := (Bool.and_eq_true _ _ ▸ h).1
      rw [emptiesOk, hpos] at hempties
      match ps, hps with
      | [], hps =>
        have hr := emptyPos_eq_nil.1 hps.symm
        rw [← List.singleton_append, ← List.append_assoc] at h ⊢
        obtain ⟨hs, hl0, hr0⟩ := (piecesOk_inner hl hr).1 h
        exact .inner hs hl0 hr0
      | [q], hps =>
        obtain ⟨m, r, hm, rfl, rfl, hqs⟩ := exists_split_of_emptyPos hps.symm
        have hr := emptyPos_eq_nil.1 hqs.symm
        obtain rfl : m = [] := List.length_eq_zero_iff.1 (by simpa using hempties)
        have hsplit : l ++ [] :: ([] ++ [] :: r) = l ++ [[], []] ++ r := by simp
        rw [hsplit] at h ⊢
        exact .double ((piecesOk_double hl hr).1 h)
      | [q, q'], hps =>
        obtain ⟨m, r, hm, rfl, rfl, hqs⟩ := exists_split_of_emptyPos hps.symm
        obtain ⟨m', r, hm', rfl, rfl, hr⟩ := exists_split_of_emptyPos hqs.symm
        have hlen : (l ++ [] :: (m ++ [] :: (m' ++ [] :: r))).length = 3 := by simpa using hempties
        simp only [List.length_append, List.length_cons] at hlen
        obtain rfl : l = [] := List.length_eq_zero_iff.1 (by omega)
        obtain rfl : m = [] := List.length_eq_zero_iff.1 (by omega)
        obtain rfl : m' = [] := List.length_eq_zero_iff.1 (by omega)
        obtain rfl : r = [] := List.length_eq_zero_iff.1 (by omega)
        exact .triple
      | _ :: _ :: _ :: _, hps => exact absurd hempties (by simp)
    · exact .full ((piecesOk_full hts).1 h)
  · intro h
    cases h with
    | full h => exact (piecesOk_full h.ne_nil).2 h
    | inner h hl hr => exact (piecesOk_inner h.ne_nil.1 h.ne_nil.2).2 ⟨h, hl, hr⟩
    | double h => exact (piecesOk_double h.ne_nil.1 h.ne_nil.2).2 h
    | triple => decide

/-- Fewer than ten pieces are accepted. -/
lemma AcceptedPieces.length_le {ts : List Bytes} (h : AcceptedPieces ts) : ts.length ≤ 9 := by
  cases h with
  | full h => have := h.length_le; omega
  | inner h _ _ => have := h.length_le; simp; omega
  | double h => have := h.length_le; simp; omega
  | triple => simp

/-- `check_ipv6` looks at the pieces between the colons. -/
lemma checkIpv6_eq (s : Bytes) : checkIpv6 s = true ↔ AcceptedPieces (s.splitOn Ch.colon) := by
  have htokens : ipv6Tokens [] 0 s =
      if (s.splitOn Ch.colon).length ≤ 9 then some (s.splitOn Ch.colon) else none := by
    rw [ipv6Tokens_eq, Nat.zero_add]
    cases s.splitOn Ch.colon <;> rfl
  by_cases hlen : (s.splitOn Ch.colon).length ≤ 9
  · rw [checkIpv6, htokens, if_pos hlen, ← piecesOk_iff]
    rfl
  · rw [checkIpv6, htokens, if_neg hlen]
    exact ⟨fun h => absurd h (by simp), fun h => absurd h.length_le hlen⟩

/-! ## Three colons -/

/-- A lone colon, or groups on both sides of three colons. -/
inductive ThreeColons : Bytes → Prop
  /-- `:`. -/
  | lone : ThreeColons [Ch.colon]
  /-- At most seven groups, some on each side. -/
  | between {l r : List Bytes} (h : Sides l r) (hl : l ≠ []) (hr : r ≠ []) :
      ThreeColons (joined l ++ [Ch.colon, Ch.colon, Ch.colon] ++ joined r)

/-- What joined pieces are cut into; joining none leaves one empty piece. -/
def padded (ts : List Bytes) : List Bytes := if ts = [] then [[]] else ts

lemma splitOn_full {ts : List Bytes} (h : Pieces ts 8) : (joined ts).splitOn Ch.colon = ts := by
  have hne : ts ≠ [] := fun h0 => by subst h0; cases h
  exact (Inet.splitOn_joined h.no_colon).trans (if_neg hne)

lemma splitOn_sides {l r : List Bytes} (h : Sides l r) :
    (joined l ++ [Ch.colon, Ch.colon] ++ joined r).splitOn Ch.colon =
      padded l ++ [[]] ++ padded r := by
  rw [Inet.splitOn_short, Inet.splitOn_joined h.no_colon.1, Inet.splitOn_joined h.no_colon.2,
    List.append_assoc]
  rfl

lemma splitOn_between {l r : List Bytes} (h : Sides l r) (hl : l ≠ []) (hr : r ≠ []) :
    (joined l ++ [Ch.colon, Ch.colon, Ch.colon] ++ joined r).splitOn Ch.colon =
      l ++ [[], []] ++ r := by
  have hmid : joined l ++ [Ch.colon, Ch.colon, Ch.colon] ++ joined r =
      joined l ++ [Ch.colon, Ch.colon] ++ Ch.colon :: joined r := by simp
  have hhead : (Ch.colon :: joined r).splitOn Ch.colon = [] :: (joined r).splitOn Ch.colon :=
    List.splitOn_append_cons_self [] (joined r)
  rw [hmid, Inet.splitOn_short, hhead, Inet.splitOn_joined h.no_colon.1,
    Inet.splitOn_joined h.no_colon.2, if_neg hl, if_neg hr]
  simp

/-- Texts with the same pieces are the same. -/
lemma eq_of_splitOn {s t : Bytes} (h : s.splitOn Ch.colon = t.splitOn Ch.colon) : s = t := by
  have hs : [Ch.colon].intercalate (s.splitOn Ch.colon) = s := List.intercalate_splitOn Ch.colon
  have ht : [Ch.colon].intercalate (t.splitOn Ch.colon) = t := List.intercalate_splitOn Ch.colon
  rw [← hs, h, ht]

lemma padded_nil : padded [] = [[]] := rfl

lemma padded_of_ne {ts : List Bytes} (h : ts ≠ []) : padded ts = ts := if_neg h

/-- The pieces of a text with a compression are accepted. -/
lemma Sides.accepted {l r : List Bytes} (h : Sides l r) :
    AcceptedPieces (padded l ++ [[]] ++ padded r) := by
  by_cases hl : l = []
  · subst hl
    by_cases hr : r = []
    · subst hr
      exact .triple
    · rw [padded_nil, padded_of_ne hr]
      exact .double h
  · rw [padded_of_ne hl]
    by_cases hr : r = []
    · subst hr
      have hpieces : l ++ [[]] ++ padded [] = l ++ [[], []] ++ [] := by simp [padded_nil]
      rw [hpieces]
      exact .double h
    · rw [padded_of_ne hr]
      exact .inner h hl hr

/-- A text with two empty pieces next to each other. -/
lemma address_of_double {s : Bytes} {l r : List Bytes} (h : Sides l r)
    (hs : s.splitOn Ch.colon = l ++ [[], []] ++ r) : IsIpv6 s ∨ ThreeColons s := by
  obtain ⟨hg, k, hk, hle⟩ := id h
  by_cases hl : l = []
  · by_cases hr : r = []
    · subst hl hr
      obtain rfl : s = [Ch.colon] := eq_of_splitOn (hs.trans (by decide))
      exact .inr .lone
    · have hpad : l ++ [[], []] ++ r = padded l ++ [[]] ++ padded r := by
        simp [hl, padded_nil, padded_of_ne hr]
      rw [hpad, ← splitOn_sides h] at hs
      exact .inl (eq_of_splitOn hs ▸ .short hg hk hle)
  · by_cases hr : r = []
    · have hpad : l ++ [[], []] ++ r = padded l ++ [[]] ++ padded r := by
        simp [hr, padded_nil, padded_of_ne hl]
      rw [hpad, ← splitOn_sides h] at hs
      exact .inl (eq_of_splitOn hs ▸ .short hg hk hle)
    · rw [← splitOn_between h hl hr] at hs
      exact .inr (eq_of_splitOn hs ▸ .between h hl hr)

/-- `check_ipv6` accepts the addresses and the texts with three colons. -/
lemma checkIpv6_iff_or (s : Bytes) : checkIpv6 s = true ↔ IsIpv6 s ∨ ThreeColons s := by
  rw [checkIpv6_eq]
  constructor
  · intro h
    generalize hts : s.splitOn Ch.colon = ts at h
    cases h with
    | full h =>
      rw [← splitOn_full h] at hts
      exact .inl (eq_of_splitOn hts ▸ .full h)
    | @inner l r h hl hr =>
      obtain ⟨hg, k, hk, hle⟩ := id h
      have hpad : l ++ [[]] ++ r = padded l ++ [[]] ++ padded r := by
        rw [padded_of_ne hl, padded_of_ne hr]
      rw [hpad, ← splitOn_sides h] at hts
      exact .inl (eq_of_splitOn hts ▸ .short hg hk hle)
    | double h => exact address_of_double h hts
    | triple =>
      obtain rfl : s = joined [] ++ [Ch.colon, Ch.colon] ++ joined [] :=
        eq_of_splitOn (hts.trans (by decide))
      exact .inl (.short (by simp) .nil (by simp))
  · rintro (h | h)
    · cases h with
      | full h =>
        rw [splitOn_full h]
        exact .full h
      | short hl hr hk =>
        have h : Sides _ _ := ⟨hl, _, hr, hk⟩
        exact splitOn_sides h ▸ h.accepted
    · cases h with
      | lone => exact .double (l := []) (r := []) ⟨by simp, 0, .nil, by simp⟩
      | between h hl hr => exact splitOn_between h hl hr ▸ .double h

/-- Two empty pieces next to each other, at both ends or at none. -/
def Misplaced (ts : List Bytes) : Prop :=
  ∃ p, emptyPos 0 ts = [p, p + 1] ∧ (p = 0 ↔ p + 2 = ts.length)

lemma ThreeColons.misplaced {s : Bytes} (h : ThreeColons s) : Misplaced (s.splitOn Ch.colon) := by
  cases h with
  | lone => exact ⟨0, by decide, by decide⟩
  | between h hl hr =>
    rw [splitOn_between h hl hr]
    refine ⟨_, emptyPos_double h.ne_nil.1 h.ne_nil.2, ?_⟩
    have hl := List.length_pos_iff.2 hl
    have hr := List.length_pos_iff.2 hr
    simp only [List.length_append, List.length_cons, List.length_nil]
    omega

/-- The compression of an address stands between groups or at one end. -/
lemma not_misplaced {s : Bytes} (h : IsIpv6 s) : ¬ Misplaced (s.splitOn Ch.colon) := by
  rintro ⟨p, hpos, hp⟩
  cases h with
  | full h => rw [splitOn_full h, emptyPos_eq_nil.2 h.ne_nil] at hpos; exact absurd hpos (by simp)
  | @short l r k hl hr hk =>
    have h : Sides l r := ⟨hl, k, hr, hk⟩
    obtain ⟨hl0, hr0⟩ := h.ne_nil
    rw [splitOn_sides h] at hpos hp
    by_cases hl : l = [] <;> by_cases hr : r = []
    · subst hl hr
      simp [padded_nil, emptyPos] at hpos
    · rw [hl, padded_nil, padded_of_ne hr] at hpos hp
      have hdouble := @emptyPos_double [] r (by simp) hr0
      have hr := List.length_pos_iff.2 hr
      rw [show [[]] ++ [[]] ++ r = [] ++ [[], []] ++ r from rfl, hdouble] at hpos
      simp only [List.cons.injEq, List.length_append, List.length_cons, List.length_nil] at hpos hp
      omega
    · rw [hr, padded_nil, padded_of_ne hl] at hpos hp
      have hdouble := @emptyPos_double l [] hl0 (by simp)
      have hl := List.length_pos_iff.2 hl
      rw [show l ++ [[]] ++ [[]] = l ++ [[], []] ++ [] by simp, hdouble] at hpos
      simp only [List.cons.injEq, List.length_append, List.length_cons, List.length_nil] at hpos hp
      omega
    · rw [padded_of_ne hl, padded_of_ne hr, emptyPos_inner hl0 hr0] at hpos
      exact absurd hpos (by simp)

/-- `check_ipv6` decides whether a text is an IPv6 address, unless three colons stand where a
compression may not. -/
theorem checkIpv6_correct_iff (s : Bytes) :
    (checkIpv6 s = true ↔ IsIpv6 s) ↔ ¬ ThreeColons s := by
  rw [checkIpv6_iff_or]
  constructor
  · exact fun h hc => not_misplaced (h.1 (.inr hc)) hc.misplaced
  · exact fun hc => ⟨fun h => h.resolve_right hc, .inl⟩

/-- `1:::2` is accepted and is no address. -/
theorem checkIpv6_three_colons :
    ¬ (checkIpv6 [0x31, 0x3A, 0x3A, 0x3A, 0x32] = true ↔
      IsIpv6 [0x31, 0x3A, 0x3A, 0x3A, 0x32]) := by
  intro h
  have hs : Sides [[0x31]] [[0x32]] :=
    ⟨by simp [IsGroup, Inet.IsHexDigit, Inet.IsDigit], 1,
      .group (by simp [IsGroup, Inet.IsHexDigit, Inet.IsDigit]) .nil, by decide⟩
  have hc : ThreeColons [0x31, 0x3A, 0x3A, 0x3A, 0x32] := .between hs (by simp) (by simp)
  exact not_misplaced (h.1 (by decide)) hc.misplaced


end Teptris
