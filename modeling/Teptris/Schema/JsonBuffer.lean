import Teptris.Library.Storage
import Teptris.Schema.JsonRead

/-!
# Strings of schema texts in memory

`jstring` of `json_read.c` over positions of the text and over the memory it asks the arena for:
every byte that is read names its position and every byte that is written its cell, and one that is
not there is a fault.  There are none (`jstring_inside`): what the escapes put out is never longer
than what they were read from, so the capacity that is fixed in front of them is enough.  What the
reader comes to is what `jstring` says (`jstringAt_eq`).
-/

namespace Teptris

open Storage

/-! ## The reader -/

/-- Why the reader of a string stops. -/
inductive JStop where
  /-- A byte is read or written that is not there. -/
  | outside
  /-- A loop does not end. -/
  | endless
  /-- `jfail`, with `pos`. -/
  | refused (msg : String) (pos : ℕ)
deriving DecidableEq

/-- The memory of a string, the bytes that are written to it, and `pos`. -/
structure JText where
  /-- `out`. -/
  mem : Bytes
  /-- `n`. -/
  n : ℕ
  /-- `pos`. -/
  pos : ℕ
deriving DecidableEq

/-- `src[pos]`. -/
def readAt (src : Bytes) (pos : ℕ) : Except JStop UInt8 :=
  match src[pos]? with
  | none => .error .outside
  | some c => .ok c

/-- Bytes to the cells from `n` on, and `n` behind them. -/
def JText.put (t : JText) (s : Bytes) : Except JStop JText :=
  match write t.mem t.n s with
  | none => .error .outside
  | some mem => .ok { t with mem, n := t.n + s.length }

/-- `out[n] = '\0'`. -/
def JText.terminate (t : JText) : Except JStop JText :=
  (t.put [0]).map fun t' => { t' with n := t.n }

/-- The loop over hexadecimal digits, as many as are left. -/
def jhexAt (src : Bytes) : ℕ → ℕ → ℕ → Except JStop (Option ℕ)
  | _, 0, cp => .ok (some cp)
  | pos, k + 1, cp => do
    match jhex (← readAt src pos) with
    | none => .ok none
    | some d => jhexAt src (pos + 1) k (cp * 16 + d)

/-- `jescape_u`, from the position behind the `u`. -/
def jescapeUAt (src : Bytes) (pos : ℕ) : Except JStop (ℕ × ℕ) :=
  if src.length < pos + 4 then .error (.refused "incomplete \\u escape" pos)
  else do
    match ← jhexAt src pos 4 0 with
    | none => .error (.refused "invalid \\u escape" pos)
    | some cp =>
      let pos := pos + 4
      if 0xD800 ≤ cp ∧ cp ≤ 0xDBFF ∧ pos + 6 ≤ src.length then
        if (← readAt src pos) = 0x5C then
          if (← readAt src (pos + 1)) = 0x75 then
            match ← jhexAt src (pos + 2) 4 0 with
            | none => .ok (cp, pos)
            | some lo =>
              if 0xDC00 ≤ lo ∧ lo ≤ 0xDFFF then
                .ok (0x10000 + (cp - 0xD800) * 2 ^ 10 + (lo - 0xDC00), pos + 6)
              else .ok (cp, pos)
          else .ok (cp, pos)
        else .ok (cp, pos)
      else .ok (cp, pos)

/-- The fast scan: where it stops, and whether the string is plain. -/
def jscanAt (src : Bytes) : ℕ → ℕ → Except JStop (ℕ × Bool)
  | 0, _ => .error .endless
  | fuel + 1, pos =>
    if pos < src.length then do
      let ch ← readAt src pos
      if ch = 0x22 then .ok (pos, true)
      else if ch = 0x5C ∨ ch < 0x20 then .ok (pos, false)
      else jscanAt src fuel (pos + 1)
    else .ok (pos, true)

/-- One turn of the loop that rebuilds a string, on a byte that is not the closing quote. -/
def jcharAt (src : Bytes) (t : JText) (ch : UInt8) : Except JStop JText :=
  if ch < 0x20 then .error (.refused "control character in string" t.pos)
  else if ch ≠ 0x5C then JText.put { t with pos := t.pos + 1 } [ch]
  else
    let pos := t.pos + 1
    if src.length ≤ pos then .error (.refused "unterminated escape" pos)
    else do
      let e ← readAt src pos
      if e = 0x75 then do
        let (cp, pos) ← jescapeUAt src (pos + 1)
        if 0xD800 ≤ cp ∧ cp ≤ 0xDFFF then .error (.refused "lone surrogate in \\u escape" pos)
        else JText.put { t with pos } (jputUtf8 cp)
      else
        match jshort e with
        | none => .error (.refused "invalid escape" pos)
        | some c => JText.put { t with pos := pos + 1 } [c]

/-- The loop that rebuilds a string, up to its closing quote. -/
def jrebuildAt (src : Bytes) : ℕ → JText → Except JStop JText
  | 0, _ => .error .endless
  | fuel + 1, t =>
    if src.length ≤ t.pos then .error (.refused "unterminated string" t.pos)
    else do
      let ch ← readAt src t.pos
      if ch = 0x22 then .ok { t with pos := t.pos + 1 }
      else jrebuildAt src fuel (← jcharAt src t ch)

/-- `memcpy` from the text. -/
def copyFrom (src : Bytes) (start len : ℕ) : Except JStop Bytes :=
  if start + len ≤ src.length then .ok ((src.drop start).take len) else .error .outside

/-- What `teptris_arena_alloc` gives: as many cells as are asked for. -/
abbrev JAlloc := (n : ℕ) → {mem : Bytes // mem.length = n}

/-- `jstring`, from the position of the opening quote; the terminator is written behind the text. -/
def jstringAt (alloc : JAlloc) (src : Bytes) (pos : ℕ) : Except JStop JText := do
  let start := pos + 1
  let (pos, plain) ← jscanAt src (src.length + 1) start
  if src.length ≤ pos then .error (.refused "unterminated string" pos)
  else do
    let len := pos - start
    let s ← copyFrom src start len
    if plain then do
      let t ← JText.put ⟨(alloc (len + 1)).val, 0, pos + 1⟩ s
      t.terminate
    else do
      let t ← JText.put ⟨(alloc (src.length - start + 16)).val, 0, pos⟩ s
      let t ← jrebuildAt src (src.length - pos + 1) t
      t.terminate

/-! ## Positions -/

section Positions

variable {src q r : Bytes} {pos k : ℕ} {c : UInt8} {α : Type}

/-- What a reader of bytes gives, over positions. -/
def asAt (src : Bytes) : JResult (α × Bytes) → Except JStop (α × ℕ)
  | .error (msg, q) => .error (.refused msg (src.length - q.length))
  | .ok (a, q) => .ok (a, src.length - q.length)

/-- Where the bytes begin that are left. -/
lemma length_sub_drop (h : pos ≤ src.length) : src.length - (src.drop pos).length = pos := by
  rw [List.length_drop]
  omega

lemma pos_lt_of_drop (h : src.drop pos = c :: r) : pos < src.length := by
  have hlen := congrArg List.length h
  rw [List.length_drop, List.length_cons] at hlen
  omega

lemma readAt_of_drop (h : src.drop pos = c :: r) : readAt src pos = .ok c := by
  have hget : src[pos]? = some c := by rw [← List.head?_drop, h, List.head?_cons]
  rw [readAt, hget]

lemma drop_succ_of_drop (h : src.drop pos = c :: r) : src.drop (pos + 1) = r := by
  rw [← List.drop_drop, h, List.drop_succ_cons, List.drop_zero]

/-- Digits that are there are read. -/
lemma jhexAt_eq {cp : ℕ} (h : pos + k ≤ src.length) :
    jhexAt src pos k cp = .ok (((src.drop pos).take k).foldl
      (fun cp c => cp.bind fun cp => (jhex c).map fun d => cp * 16 + d) (some cp)) := by
  induction k generalizing pos cp with
  | zero => rfl
  | succ k ih =>
    have hlt : pos < src.length := by omega
    have hdrop := List.drop_eq_getElem_cons hlt
    rw [jhexAt, readAt_of_drop hdrop, hdrop, List.take_succ_cons, List.foldl_cons]
    cases hd : jhex src[pos] with
    | none =>
      have hnone : ∀ l : Bytes, l.foldl
          (fun cp c => cp.bind fun cp => (jhex c).map fun d => cp * 16 + d) none = none := by
        intro l
        induction l with
        | nil => rfl
        | cons c l ih => exact ih
      simp [hnone, bind, Except.bind, hd]
    | some d =>
      simp only [bind, Except.bind, hd, Option.bind_some, Option.map_some]
      exact ih (by omega)

lemma jhexAt_four (h : pos + 4 ≤ src.length) :
    jhexAt src pos 4 0 = .ok (jhex4 (src.drop pos)) := jhexAt_eq h

/-- `jescape_u` reads the same bytes over positions. -/
lemma jescapeUAt_eq (h : pos ≤ src.length) :
    jescapeUAt src pos = asAt src (jescapeU (src.drop pos)) := by
  have hlen : (src.drop pos).length = src.length - pos := List.length_drop
  rw [jescapeUAt, jescapeU]
  by_cases hshort : src.length < pos + 4
  · rw [if_pos hshort, if_pos (by omega), asAt, length_sub_drop h]
  rw [if_neg hshort, if_neg (by omega), jhexAt_four (by omega)]
  simp only [bind, Except.bind]
  cases jhex4 (src.drop pos) with
  | none => rw [asAt, length_sub_drop h]
  | some cp =>
    have hpos : pos + 4 ≤ src.length := by omega
    have hend : src.length - ((src.drop pos).drop 4).length = pos + 4 := by
      rw [List.drop_drop, length_sub_drop hpos]
    have hlone : (Except.ok (cp, pos + 4) : Except JStop (ℕ × ℕ)) =
        asAt src (.ok (cp, (src.drop pos).drop 4)) := by rw [asAt, hend]
    simp only [hlone]
    by_cases hpair : 0xD800 ≤ cp ∧ cp ≤ 0xDBFF ∧ pos + 4 + 6 ≤ src.length
    · obtain ⟨hge, hle, hroom⟩ := hpair
      -- a second escape is in front: its six bytes are there
      obtain ⟨a, b, r, hr⟩ : ∃ a b r, src.drop (pos + 4) = a :: b :: r :=
        ⟨_, _, _, (List.drop_eq_getElem_cons (by omega)).trans
          (congrArg _ (List.drop_eq_getElem_cons (by omega)))⟩
      have hnext := drop_succ_of_drop hr
      have hrest : src.drop (pos + 4 + 2) = r := drop_succ_of_drop hnext
      have hsix : 6 ≤ (a :: b :: r).length := by
        rw [← hr, List.length_drop]
        omega
      rw [if_pos ⟨hge, hle, hroom⟩, readAt_of_drop hr, readAt_of_drop hnext,
        jhexAt_four (by omega), hrest, List.drop_drop, hr]
      simp only [hge, hle, hsix, true_and, List.take_succ_cons, List.take_zero, List.cons.injEq,
        and_true, List.drop_succ_cons, List.drop_zero]
      have htail : src.length - (r.drop 4).length = pos + 4 + 6 := by
        rw [← hrest, List.drop_drop, length_sub_drop hroom]
      by_cases ha : a = 0x5C
      · by_cases hb : b = 0x75
        · rw [if_pos ha, if_pos hb, if_pos ⟨ha, hb⟩]
          cases jhex4 r with
          | none => rfl
          | some lo =>
            simp only
            split_ifs
            · rw [asAt, htail]
            · rfl
        · rw [if_pos ha, if_neg hb, if_neg fun hab => hb hab.2]
      · rw [if_neg ha, if_neg fun hab => ha hab.1]
    · rw [if_neg hpair, if_neg]
      rintro ⟨hge, hle, hroom, -⟩
      rw [List.drop_drop, List.length_drop] at hroom
      exact hpair ⟨hge, hle, by omega⟩

/-- The loop of the fast scan stops at the first byte that is not plain. -/
lemma jscanAt_eq {fuel : ℕ} (h : pos ≤ src.length) (hfuel : src.length - pos < fuel) :
    jscanAt src fuel pos = .ok (src.length - ((src.drop pos).dropWhile isPlainChar).length,
      ((src.drop pos).dropWhile isPlainChar).head?.all (· == 0x22)) := by
  induction fuel generalizing pos with
  | zero => exact absurd hfuel (Nat.not_lt_zero _)
  | succ fuel ih =>
    rw [jscanAt]
    cases hdrop : src.drop pos with
    | nil =>
      have hend : src.length ≤ pos := List.drop_eq_nil_iff.mp hdrop
      rw [if_neg (Nat.not_lt.mpr hend), List.dropWhile_nil, List.length_nil, Nat.sub_zero,
        Nat.le_antisymm h hend]
      rfl
    | cons ch r =>
      have hlt := pos_lt_of_drop hdrop
      have hhere : src.length - (ch :: r).length = pos := by rw [← hdrop, length_sub_drop h]
      rw [if_pos hlt, readAt_of_drop hdrop]
      simp only [bind, Except.bind]
      by_cases hquote : ch = 0x22
      · have hplain : isPlainChar ch = false := by rw [hquote]; decide
        rw [if_pos hquote, List.dropWhile_cons_of_neg (by simp [hplain]), hhere]
        simp [hquote]
      rw [if_neg hquote]
      by_cases hstop : ch = 0x5C ∨ ch < 0x20
      · have hplain : isPlainChar ch = false := by
          rcases hstop with rfl | hlow
          · decide
          · simp [isPlainChar, UInt8.not_le.mpr hlow]
        rw [if_pos hstop, List.dropWhile_cons_of_neg (by simp [hplain]), hhere]
        simp [hquote]
      · obtain ⟨hslash, hlow⟩ := not_or.mp hstop
        have hplain : isPlainChar ch = true := by
          simp [isPlainChar, hquote, hslash, UInt8.not_lt.mp hlow]
        rw [if_neg hstop, ih hlt (by omega), drop_succ_of_drop hdrop,
          List.dropWhile_cons_of_pos hplain]

end Positions

/-! ## What a turn puts out -/

section Turns

variable {src q r out : Bytes} {t : JText} {ch : UInt8} {cp : ℕ}

/-- A `\u` escape is of four digits at least. -/
lemma jescapeU_shrinks (h : jescapeU q = .ok (cp, r)) : r <:+ q ∧ r.length + 4 ≤ q.length := by
  rw [jescapeU] at h
  split_ifs at h with hlen
  have hfour : q.drop 4 <:+ q ∧ (q.drop 4).length + 4 ≤ q.length :=
    ⟨List.drop_suffix 4 q, by rw [List.length_drop]; omega⟩
  cases hcp : jhex4 q with
  | none =>
    rw [hcp] at h
    cases h
  | some cp₀ =>
    rw [hcp] at h
    simp only at h
    split_ifs at h with hpair
    · cases hlo : jhex4 ((q.drop 4).drop 2) with
      | none =>
        rw [hlo] at h
        obtain ⟨-, rfl⟩ := Prod.mk.inj (Except.ok.inj h)
        exact hfour
      | some lo =>
        rw [hlo] at h
        simp only at h
        split_ifs at h
        · obtain ⟨-, rfl⟩ := Prod.mk.inj (Except.ok.inj h)
          refine ⟨(List.drop_suffix 6 _).trans hfour.1, ?_⟩
          rw [List.length_drop]
          omega
        · obtain ⟨-, rfl⟩ := Prod.mk.inj (Except.ok.inj h)
          exact hfour
    · obtain ⟨-, rfl⟩ := Prod.mk.inj (Except.ok.inj h)
      exact hfour

lemma length_jputUtf8_le (cp : ℕ) : (jputUtf8 cp).length ≤ 4 := by
  unfold jputUtf8
  split_ifs <;> simp

/-- What a turn puts out is no longer than what it steps over. -/
lemma jchar_shrinks (h : jchar ch q = .ok (out, r)) :
    r <:+ q ∧ out.length + r.length ≤ q.length + 1 := by
  rw [jchar.eq_def] at h
  split_ifs at h with hlow hplain
  · obtain ⟨rfl, rfl⟩ := Prod.mk.inj (Except.ok.inj h)
    exact ⟨List.suffix_rfl, by rw [List.length_singleton, Nat.add_comm]⟩
  cases q with
  | nil => cases h
  | cons e q =>
    simp only at h
    split_ifs at h with hu
    · cases hesc : jescapeU q with
      | error f =>
        rw [hesc] at h
        cases h
      | ok p =>
        obtain ⟨cp, q'⟩ := p
        rw [hesc] at h
        simp only at h
        split_ifs at h
        obtain ⟨rfl, rfl⟩ := Prod.mk.inj (Except.ok.inj h)
        obtain ⟨hsuffix, hlen⟩ := jescapeU_shrinks hesc
        have hput := length_jputUtf8_le cp
        refine ⟨hsuffix.trans (List.suffix_cons e q), ?_⟩
        rw [List.length_cons]
        omega
    · cases hshort : jshort e with
      | none =>
        rw [hshort] at h
        cases h
      | some c =>
        rw [hshort] at h
        obtain ⟨rfl, rfl⟩ := Prod.mk.inj (Except.ok.inj h)
        refine ⟨List.suffix_cons e q, ?_⟩
        rw [List.length_singleton, List.length_cons]
        omega

/-! ## The loop -/

/-- Bytes for which there is room are put. -/
lemma JText.put_of_le {s : Bytes} (h : t.n + s.length ≤ t.mem.length) :
    ∃ mem, t.put s = .ok { t with mem, n := t.n + s.length } ∧ mem.length = t.mem.length ∧
      mem.take (t.n + s.length) = t.mem.take t.n ++ s := by
  obtain ⟨mem, hmem, hlen, htake⟩ := write_spec h
  refine ⟨mem, ?_, hlen, htake⟩
  rw [JText.put, hmem]

/-- A turn reads the same bytes over positions, and puts what it puts out. -/
lemma jcharAt_eq (h : src.drop t.pos = ch :: q) :
    jcharAt src t ch =
      (asAt src (jchar ch q)).bind fun p => JText.put { t with pos := p.2 } p.1 := by
  have hlt := pos_lt_of_drop h
  have hpos : src.length - (ch :: q).length = t.pos := by rw [← h, length_sub_drop hlt.le]
  have hq := drop_succ_of_drop h
  have hnext : src.length - q.length = t.pos + 1 := by rw [← hq, length_sub_drop hlt]
  rw [jcharAt, jchar.eq_def]
  split_ifs with hlow hplain
  · rw [asAt, hpos]
    rfl
  · rw [asAt, hnext]
    rfl
  cases q with
  | nil =>
    rw [if_pos (List.drop_eq_nil_iff.mp hq), asAt, ← hnext]
    rfl
  | cons e q =>
    have hlt' := pos_lt_of_drop hq
    have hq' : src.drop (t.pos + 1 + 1) = q := drop_succ_of_drop hq
    rw [if_neg (Nat.not_le.mpr hlt'), readAt_of_drop hq]
    simp only [bind, Except.bind]
    by_cases hu : e = 0x75
    · rw [if_pos hu, if_pos hu, jescapeUAt_eq hlt', hq']
      cases jescapeU q with
      | error f => rfl
      | ok p =>
        simp only [asAt]
        split_ifs <;> rfl
    · rw [if_neg hu, if_neg hu]
      cases jshort e with
      | none => simp only [asAt, hnext]
      | some c =>
        have hlast : src.length - q.length = t.pos + 1 + 1 := by rw [← hq', length_sub_drop hlt']
        simp only [asAt, hlast]

/-- The loop that rebuilds a string reads the same bytes over positions, and the memory has room for
what it puts out as long as it has room for what is left. -/
lemma jrebuildAt_eq {fuel : ℕ} (hfuel : (src.drop t.pos).length < fuel)
    (hroom : t.n + (src.drop t.pos).length < t.mem.length) (hpos : t.pos ≤ src.length) :
    match jrebuild fuel (src.drop t.pos) with
    | .error (msg, r) => jrebuildAt src fuel t = .error (.refused msg (src.length - r.length))
    | .ok (s, r) => ∃ mem, jrebuildAt src fuel t =
        .ok ⟨mem, t.n + s.length, src.length - r.length⟩ ∧ mem.length = t.mem.length ∧
        mem.take (t.n + s.length) = t.mem.take t.n ++ s ∧ t.n + s.length < mem.length := by
  induction fuel generalizing t with
  | zero => exact absurd hfuel (Nat.not_lt_zero _)
  | succ fuel ih =>
    cases hdrop : src.drop t.pos with
    | nil =>
      have hend : src.length ≤ t.pos := List.drop_eq_nil_iff.mp hdrop
      simp only [jrebuild]
      rw [jrebuildAt, if_pos hend, List.length_nil, Nat.sub_zero, Nat.le_antisymm hpos hend]
    | cons ch q =>
      rw [hdrop, List.length_cons] at hfuel hroom
      have hlt := pos_lt_of_drop hdrop
      have hnext : src.length - q.length = t.pos + 1 := by
        rw [← drop_succ_of_drop hdrop, length_sub_drop hlt]
      have hturn : jrebuildAt src (fuel + 1) t =
          if ch = 0x22 then .ok { t with pos := t.pos + 1 }
          else (jcharAt src t ch).bind (jrebuildAt src fuel) := by
        rw [jrebuildAt, if_neg (Nat.not_le.mpr hlt), readAt_of_drop hdrop]
        rfl
      rw [hturn, jrebuild]
      by_cases hquote : ch = 0x22
      · simp only [if_pos hquote]
        exact ⟨t.mem, by rw [hnext]; rfl, rfl, (List.append_nil _).symm, by
          rw [List.length_nil]; omega⟩
      rw [if_neg hquote, if_neg hquote, jcharAt_eq hdrop]
      cases hchar : jchar ch q with
      | error f => rfl
      | ok p =>
        obtain ⟨out, q'⟩ := p
        obtain ⟨hsuffix, hlen⟩ := jchar_shrinks hchar
        have hle := hsuffix.length_le
        -- the turn has room, and leaves enough of it
        have hq' : src.drop (src.length - q'.length) = q' := by
          have hall : q' <:+ src := hsuffix.trans (drop_succ_of_drop hdrop ▸ List.drop_suffix _ _)
          exact (List.suffix_iff_eq_drop.mp hall).symm
        obtain ⟨mem, hput, hmem, htake⟩ :=
          JText.put_of_le (s := out) (t := { t with pos := src.length - q'.length })
            (by simp only; omega)
        have hrest := @ih ⟨mem, t.n + out.length, src.length - q'.length⟩
          (by simp only [hq']; omega) (by simp only [hq', hmem]; omega) (Nat.sub_le _ _)
        simp only [asAt, Except.bind, hput]
        simp only [hq'] at hrest
        cases hnextRun : jrebuild fuel q' with
        | error f =>
          rw [hnextRun] at hrest
          exact hrest
        | ok r =>
          obtain ⟨s, r⟩ := r
          rw [hnextRun] at hrest
          obtain ⟨mem', hrun, hlen', htake', hlt'⟩ := hrest
          refine ⟨mem', ?_, hlen'.trans hmem, ?_, ?_⟩
          · rw [hrun, List.length_append, Nat.add_assoc]
          · rw [List.length_append, ← Nat.add_assoc, htake', htake, List.append_assoc]
          · rwa [List.length_append, ← Nat.add_assoc]

end Turns

/-! ## Strings -/

section Strings

variable (alloc : JAlloc) {src : Bytes} {pos : ℕ}

/-- The terminator is written where a cell is left for it. -/
lemma JText.terminate_of_lt {t : JText} (h : t.n < t.mem.length) :
    ∃ mem, t.terminate = .ok { t with mem } ∧ mem.take (t.n + 1) = t.mem.take t.n ++ [0] := by
  obtain ⟨mem, hput, -, htake⟩ := JText.put_of_le (s := [0]) (t := t) h
  exact ⟨mem, by rw [JText.terminate, hput]; rfl, htake⟩

/-- Over positions and memory a string is read as `jstring` reads it, and its memory begins with its
text and the terminator. -/
theorem jstringAt_eq (h : pos < src.length) :
    match jstring (src.drop (pos + 1)) with
    | .error (msg, r) => jstringAt alloc src pos = .error (.refused msg (src.length - r.length))
    | .ok (s, r) => ∃ mem, jstringAt alloc src pos = .ok ⟨mem, s.length, src.length - r.length⟩ ∧
        mem.take (s.length + 1) = s ++ [0] := by
  have hscan : jscanAt src (src.length + 1) (pos + 1) = _ := jscanAt_eq h (by omega)
  have hsplit := List.takeWhile_append_dropWhile (p := isPlainChar) (l := src.drop (pos + 1))
  obtain ⟨p, hp⟩ : ∃ p, (src.drop (pos + 1)).takeWhile isPlainChar = p := ⟨_, rfl⟩
  rw [jstring, hp]
  rw [hp] at hsplit
  cases hd : (src.drop (pos + 1)).dropWhile isPlainChar with
  | nil =>
    rw [hd] at hscan
    simp only [jstringAt, hscan, bind, Except.bind]
    rw [if_pos (by simp)]
  | cons ch r =>
    rw [hd] at hscan hsplit
    have hlen := congrArg List.length hsplit
    rw [List.length_append, List.length_cons, List.length_drop] at hlen
    have hstop : src.length - (ch :: r).length = pos + 1 + p.length := by
      rw [List.length_cons]
      omega
    have hcopy : copyFrom src (pos + 1) (pos + 1 + p.length - (pos + 1)) = .ok p := by
      rw [Nat.add_sub_cancel_left, copyFrom, if_pos (by omega), ← hsplit, List.take_left']
      rfl
    rw [hstop] at hscan
    have hin : ¬ src.length ≤ pos + 1 + p.length := by omega
    have hrun : jstringAt alloc src pos =
        if ch = 0x22 then
          (JText.put ⟨(alloc (p.length + 1)).val, 0, pos + 1 + p.length + 1⟩ p).bind JText.terminate
        else
          (JText.put ⟨(alloc (src.length - (pos + 1) + 16)).val, 0, pos + 1 + p.length⟩ p).bind
            fun t => (jrebuildAt src (r.length + 2) t).bind JText.terminate := by
      have hfuel : src.length - (pos + 1 + p.length) + 1 = r.length + 2 := by omega
      simp only [jstringAt, hscan, bind, Except.bind]
      rw [if_neg hin, hcopy, hfuel, Nat.add_sub_cancel_left]
      simp only [List.head?_cons, Option.all_some, beq_iff_eq]
    rw [hrun]
    by_cases hquote : ch = 0x22
    · simp only [if_pos hquote]
      have hsize := (alloc (p.length + 1)).property
      obtain ⟨mem, hput, hlen', htake⟩ := JText.put_of_le (s := p)
        (t := ⟨(alloc (p.length + 1)).val, 0, pos + 1 + p.length + 1⟩) (by simp only [hsize]; omega)
      obtain ⟨mem', hterm, htake'⟩ := JText.terminate_of_lt
        (t := ⟨mem, 0 + p.length, pos + 1 + p.length + 1⟩) (by simp only [hlen', hsize]; omega)
      have hend : src.length - r.length = pos + 1 + p.length + 1 := by omega
      simp only [Nat.zero_add, List.take_zero, List.nil_append] at hput htake hterm htake'
      rw [hput, hend]
      exact ⟨mem', hterm, by rw [htake', htake]⟩
    · simp only [if_neg hquote]
      have hsize := (alloc (src.length - (pos + 1) + 16)).property
      obtain ⟨mem, hput, hlen', htake⟩ := JText.put_of_le (s := p)
        (t := ⟨(alloc (src.length - (pos + 1) + 16)).val, 0, pos + 1 + p.length⟩)
        (by simp only [hsize]; omega)
      simp only [Nat.zero_add, List.take_zero, List.nil_append] at hput htake
      have hrest : src.drop (pos + 1 + p.length) = ch :: r := by
        rw [← List.drop_drop, ← hsplit, List.drop_left]
      have hloop := @jrebuildAt_eq src ⟨mem, p.length, pos + 1 + p.length⟩ (r.length + 2)
        (by simp [hrest]) (by simp only [hrest, hlen', hsize, List.length_cons]; omega)
        (by simp only; omega)
      simp only [hrest] at hloop
      rw [hput]
      cases hre : jrebuild (r.length + 2) (ch :: r) with
      | error f =>
        rw [hre] at hloop
        simp only at hloop ⊢
        simp only [Except.bind, hloop]
      | ok q =>
        obtain ⟨s, q⟩ := q
        rw [hre] at hloop
        obtain ⟨mem', hrun', hmem', htake', hlt'⟩ := hloop
        obtain ⟨mem'', hterm, htake''⟩ := JText.terminate_of_lt
          (t := ⟨mem', p.length + s.length, src.length - q.length⟩) hlt'
        refine ⟨mem'', ?_, ?_⟩
        · simp only [Except.bind, hrun', hterm, List.length_append]
        · rw [List.length_append, htake'', htake', htake]

/-- Wherever a string begins: no byte of the text is read that is not there, no byte is written
outside the memory that is asked for, and the reader comes to an end. -/
theorem jstring_inside (src : Bytes) (pos : ℕ) :
    jstringAt alloc src pos ≠ .error .outside ∧ jstringAt alloc src pos ≠ .error .endless := by
  rcases Nat.lt_or_ge pos src.length with hlt | hge
  · have heq := jstringAt_eq alloc hlt
    cases hs : jstring (src.drop (pos + 1)) with
    | error f =>
      rw [hs] at heq
      simp only at heq
      rw [heq]
      simp
    | ok p =>
      rw [hs] at heq
      obtain ⟨mem, hrun, -⟩ := heq
      rw [hrun]
      simp
  · have hscan : jscanAt src (src.length + 1) (pos + 1) = .ok (pos + 1, true) := by
      rw [jscanAt, if_neg (by omega)]
    have hrun : jstringAt alloc src pos = .error (.refused "unterminated string" (pos + 1)) := by
      simp only [jstringAt, hscan, bind, Except.bind]
      rw [if_pos (by omega)]
    rw [hrun]
    simp

end Strings

end Teptris
