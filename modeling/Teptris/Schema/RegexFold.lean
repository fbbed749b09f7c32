import Teptris.Schema.RegexClasses
import Teptris.Schema.RegexSearch

/-!
# Case folding

A leading `(?i)` is folded into the pattern while it is parsed, and the text is not folded.  If
every atom takes both cases of a letter or neither, two texts that differ in the case of their
letters only are told apart by no step of the search (`schRegexIsMatch_caseBlind`).  Every literal
does, but an escaped capital letter outside brackets and a single small letter in a class do not.
-/

namespace Teptris

/-! ## Both cases or neither -/

/-- Both cases of a letter are taken or neither. -/
def CaseBlind (f : ℕ → Bool) : Prop := ∀ x, 'A'.toNat ≤ x → x ≤ 'Z'.toNat → f x = f (x + 32)

lemma CaseBlind.foldCp {f : ℕ → Bool} (h : CaseBlind f) (x : ℕ) : f x = f (foldCp x) := by
  rw [foldCp_eq]
  split_ifs with hx
  · exact h x hx.1 hx.2
  · rfl

/-- Code points that differ in case only are taken alike. -/
lemma CaseBlind.congr {f : ℕ → Bool} (h : CaseBlind f) {x y : ℕ}
    (hxy : Teptris.foldCp x = Teptris.foldCp y) : f x = f y := by
  rw [h.foldCp x, h.foldCp y, hxy]

/-- A state that reads a code point reads both cases of a letter or neither. -/
def RState.CaseBlind (st : RState) : Prop := st.kind = .char → Teptris.CaseBlind (clsMatch st)

/-- The same of an atom of the tree. -/
def Ra.CaseBlind : Ra → Prop
  | .char cp ci => Teptris.CaseBlind (clsMatch { RState.new .char with
      ranges := if ci then [⟨Teptris.foldCp cp - 32, Teptris.foldCp cp - 32⟩, ⟨cp, cp⟩]
        else [⟨cp, cp⟩] })
  | .cls ranges negated => Teptris.CaseBlind (clsMatch { RState.new .char with
      ranges := ranges, negated := negated })
  | _ => True

/-! ## The states of a tree -/

section Emission

variable {P : RState → Prop} {good : Ra → Bool}

/-- The states all have a property. -/
def AllStates (P : RState → Prop) (n : List RState) : Prop := ∀ st ∈ n, P st

/-- An emitter adds states with the property only. -/
def EmitsStates (P : RState → Prop) (emit : List RState → Emitted) : Prop :=
  ∀ n f n', AllStates P n → emit n = .ok (f, n') → AllStates P n'

/-- A property of states that does not depend on their targets and that every state without a
class has. -/
structure Untargeted (P : RState → Prop) : Prop where
  /-- Aiming a state keeps it. -/
  aim : ∀ st isB target, P st → P (st.aim isB target)
  /-- States that read no code point have it. -/
  plain : ∀ kind, kind ≠ .char → P (.new kind)
  /-- The dot has it. -/
  any : P { RState.new .char with any := true }

lemma nstate_states {n n' : List RState} {st : RState} {q : ℕ} (hn : AllStates P n) (hst : P st)
    (h : nstate n st = .ok (q, n')) : AllStates P n' := by
  obtain ⟨-, rfl⟩ := nstate_ok h
  intro st' hst'
  rcases List.mem_append.mp hst' with h' | h'
  · exact hn st' h'
  · rw [List.mem_singleton.mp h']
    exact hst

lemma emitState_states {st : RState} (hst : P st) : EmitsStates P (emitState · st) := by
  intro n f n' hn h
  obtain ⟨⟨q, n₁⟩, hq, h⟩ := bind_ok h
  obtain ⟨-, rfl⟩ := Prod.mk.inj (Except.ok.inj h)
  exact nstate_states hn hst hq

variable (hP : Untargeted P)

include hP

lemma modify_states {n : List RState} (hn : AllStates P n) (q : ℕ) (isB : Bool)
    (target : Option ℕ) : AllStates P (n.modify q (·.aim isB target)) := by
  intro st hst
  obtain ⟨i, hi⟩ := List.mem_iff_getElem?.mp hst
  rw [List.getElem?_modify] at hi
  cases hni : n[i]? with
  | none => simp [hni] at hi
  | some st' =>
    have hst' := hn st' (List.mem_of_getElem? hni)
    rw [hni] at hi
    split_ifs at hi
    · obtain rfl : st'.aim isB target = st := by simpa using hi
      exact hP.aim st' isB target hst'
    · obtain rfl : st' = st := by simpa using hi
      exact hst'

lemma thread_states {n : List RState} (hn : AllStates P n) (tail : List PSlot)
    (target : Option ℕ) : AllStates P (fragThread n tail target) := by
  unfold fragThread
  induction tail generalizing n with
  | nil => exact hn
  | cons slot tail ih => exact ih (modify_states hP hn _ _ _)

lemma emitCopies_states {emit : List RState → Emitted} (hemit : EmitsStates P emit) (k : ℕ) :
    ∀ f, EmitsStates P (emitCopies emit k f) := by
  induction k with
  | zero =>
    intro f n f' n' hn h
    obtain ⟨-, rfl⟩ := Prod.mk.inj (Except.ok.inj h)
    exact hn
  | succ k ih =>
    intro f n f' n' hn h
    obtain ⟨⟨piece, n₁⟩, hp, h⟩ := bind_ok h
    exact ih _ _ _ _ (thread_states hP (hemit _ _ _ hn hp) _ _) h

lemma emitMandatory_states {emit : List RState → Emitted} (hemit : EmitsStates P emit)
    (qmin : ℕ) : EmitsStates P (emitMandatory emit qmin) := by
  intro n f n' hn h
  cases qmin with
  | zero =>
    obtain ⟨-, rfl⟩ := Prod.mk.inj (Except.ok.inj h)
    exact hn
  | succ k =>
    obtain ⟨⟨piece, n₁⟩, hp, h⟩ := bind_ok h
    exact emitCopies_states hP hemit k _ _ _ _ (hemit _ _ _ hn hp) h

lemma emitUnbounded_states {emit : List RState → Emitted} (hemit : EmitsStates P emit) (qmin : ℕ)
    (f : Frag) : EmitsStates P (emitUnbounded emit qmin f) := by
  intro n f' n' hn h
  obtain ⟨⟨split, n₁⟩, hs, h⟩ := bind_ok h
  obtain ⟨⟨body, n₂⟩, hb, h⟩ := bind_ok h
  have h₁ := nstate_states hn (hP.plain .split (by simp)) hs
  have h₂ := hemit _ _ _ (thread_states hP h₁ f.tail (some split)) hb
  have h₃ := modify_states hP h₂ split false body.entry
  cases he : body.entry with
  | none =>
    simp only [he] at h
    cases h
  | some e =>
    simp only [he] at h
    obtain ⟨-, rfl⟩ := Prod.mk.inj (Except.ok.inj h)
    rw [he] at h₃
    exact thread_states hP h₃ _ _

lemma emitOptional_states {emit : List RState → Emitted} (hemit : EmitsStates P emit) (k : ℕ) :
    ∀ f, EmitsStates P (emitOptional emit k f) := by
  induction k with
  | zero =>
    intro f n f' n' hn h
    obtain ⟨-, rfl⟩ := Prod.mk.inj (Except.ok.inj h)
    exact hn
  | succ k ih =>
    intro f n f' n' hn h
    obtain ⟨⟨split, n₁⟩, hs, h⟩ := bind_ok h
    obtain ⟨⟨body, n₂⟩, hb, h⟩ := bind_ok h
    have h₁ := nstate_states hn (hP.plain .split (by simp)) hs
    have h₂ := hemit _ _ _ (thread_states hP h₁ f.tail (some split)) hb
    exact ih _ _ _ _ (modify_states hP h₂ split false body.entry) h

lemma emitQuant_states {emit : List RState → Emitted} {qmin : ℕ} {qmax : Option ℕ}
    (hemit : qmax ≠ some 0 → EmitsStates P emit) : EmitsStates P (emitQuant emit qmin qmax) := by
  intro n f n' hn h
  unfold emitQuant at h
  split_ifs at h with hq
  · obtain ⟨-, rfl⟩ := Prod.mk.inj (Except.ok.inj h)
    exact hn
  · obtain ⟨⟨f₁, n₁⟩, hm, h⟩ := bind_ok h
    have h₁ := emitMandatory_states hP (hemit hq) qmin _ _ _ hn hm
    cases qmax with
    | none => exact emitUnbounded_states hP (hemit hq) qmin f₁ _ _ _ h₁ h
    | some m =>
      simp only at h
      split_ifs at h
      · exact emitUnbounded_states hP (hemit hq) qmin f₁ _ _ _ h₁ h
      · exact emitOptional_states hP (hemit hq) _ f₁ _ _ _ h₁ h

lemma hookBranch_states {n : List RState} (hn : AllStates P n) (use : ℕ) (useB : Bool) (b : Frag)
    (merged : List PSlot) : AllStates P (hookBranch use useB b merged n).2 := by
  unfold hookBranch
  cases b.entry with
  | none => exact hn
  | some e => exact modify_states hP hn _ _ _

lemma emitSeq_states {rs : List Ra} (hrs : ∀ r ∈ rs, EmitsStates P (emitNode r)) :
    ∀ f, EmitsStates P (emitSeq rs f) := by
  induction rs with
  | nil =>
    intro f n f' n' hn h
    rw [emitSeq] at h
    obtain ⟨-, rfl⟩ := Prod.mk.inj (Except.ok.inj h)
    exact hn
  | cons r rs ih =>
    intro f n f' n' hn h
    rw [emitSeq] at h
    obtain ⟨⟨piece, n₁⟩, hp, h⟩ := bind_ok h
    have h₁ := hrs r (by simp) _ _ _ hn hp
    exact ih (fun q hq => hrs q (by simp [hq])) _ _ _ _ (thread_states hP h₁ _ _) h

lemma emitOthers_states {rs : List Ra} (hrs : ∀ r ∈ rs, EmitsStates P (emitNode r)) :
    ∀ prev merged n merged' n', AllStates P n → emitOthers rs prev merged n = .ok (merged', n') →
      AllStates P n' := by
  induction rs with
  | nil =>
    intro prev merged n merged' n' hn h
    rw [emitOthers] at h
    obtain ⟨-, rfl⟩ := Prod.mk.inj (Except.ok.inj h)
    exact hn
  | cons r rs ih =>
    intro prev merged n merged' n' hn h
    rw [emitOthers] at h
    obtain ⟨⟨b, n₁⟩, hb, h⟩ := bind_ok h
    have h₁ := hrs r (by simp) _ _ _ hn hb
    simp only at h
    split_ifs at h
    · have h₂ := hookBranch_states hP h₁ prev true b merged
      rw [Except.ok.inj h] at h₂
      exact h₂
    · obtain ⟨⟨s2, n₂⟩, hs, h⟩ := bind_ok h
      have h₂ := nstate_states h₁ (hP.plain .split (by simp)) hs
      have h₃ := modify_states hP h₂ prev true (some s2)
      exact ih (fun q hq => hrs q (by simp [hq])) _ _ _ _ _
        (hookBranch_states hP h₃ s2 false b merged) h

omit hP

/-- The atoms that are good are emitted as states with the property. -/
structure GoodAtoms (P : RState → Prop) (good : Ra → Bool) : Prop where
  /-- Code points. -/
  char : ∀ cp ci, good (.char cp ci) = true → P { RState.new .char with
    ranges := if ci then [⟨foldCp cp - 32, foldCp cp - 32⟩, ⟨cp, cp⟩] else [⟨cp, cp⟩] }
  /-- Classes. -/
  cls : ∀ ranges negated, good (.cls ranges negated) = true →
    P { RState.new .char with ranges := ranges, negated := negated }

mutual

/-- The states of a tree have the property if its atoms are good. -/
theorem emitNode_states (hP : Untargeted P) (hgood : GoodAtoms P good) :
    ∀ r : Ra, r.every good = true → EmitsStates P (emitNode r)
  | .char cp ci, h => by
    intro n f n' hn he
    rw [emitNode] at he
    exact emitState_states (hgood.char cp ci h) n f n' hn he
  | .any, _ => by
    intro n f n' hn he
    rw [emitNode] at he
    exact emitState_states hP.any n f n' hn he
  | .cls ranges negated, h => by
    intro n f n' hn he
    rw [emitNode] at he
    exact emitState_states (hgood.cls ranges negated h) n f n' hn he
  | .bol, _ => by
    intro n f n' hn he
    rw [emitNode] at he
    exact emitState_states (hP.plain .bol (by simp)) n f n' hn he
  | .eol, _ => by
    intro n f n' hn he
    rw [emitNode] at he
    exact emitState_states (hP.plain .eol (by simp)) n f n' hn he
  | .wordb, _ => by
    intro n f n' hn he
    rw [emitNode] at he
    exact emitState_states (hP.plain .wordb (by simp)) n f n' hn he
  | .nwordb, _ => by
    intro n f n' hn he
    rw [emitNode] at he
    exact emitState_states (hP.plain .nwordb (by simp)) n f n' hn he
  | .seq pieces, h => by
    intro n f n' hn he
    rw [emitNode] at he
    rw [Ra.every, Bool.and_eq_true] at h
    exact emitSeq_states hP (everyOf_states hP hgood pieces h.2) _ n f n' hn he
  | .alt first others, h => by
    intro n f n' hn he
    rw [emitNode] at he
    rw [Ra.every, Bool.and_eq_true, Bool.and_eq_true] at h
    split_ifs at he
    · exact emitNode_states hP hgood first h.2.1 n f n' hn he
    · obtain ⟨⟨split, n₁⟩, hs, he⟩ := bind_ok he
      obtain ⟨⟨b, n₂⟩, hb, he⟩ := bind_ok he
      have h₁ := nstate_states hn (hP.plain .split (by simp)) hs
      have h₂ := emitNode_states hP hgood first h.2.1 n₁ b n₂ h₁ hb
      have h₃ := hookBranch_states hP h₂ split false b []
      obtain ⟨⟨merged, n₃⟩, ho, he⟩ := bind_ok he
      obtain ⟨-, rfl⟩ := Prod.mk.inj (Except.ok.inj he)
      exact emitOthers_states hP (everyOf_states hP hgood others h.2.2) _ _ _ _ _ h₃ ho
  | .quant child qmin qmax, h => by
    intro n f n' hn he
    rw [emitNode] at he
    rw [Ra.every, Bool.and_eq_true, Bool.or_eq_true] at h
    have hchild : qmax ≠ some 0 → EmitsStates P (emitNode child) := fun h0 =>
      emitNode_states hP hgood child (h.2.resolve_left (by simpa using h0))
    exact emitQuant_states hP hchild n f n' hn he

/-- The trees of a list. -/
theorem everyOf_states (hP : Untargeted P) (hgood : GoodAtoms P good) :
    ∀ rs : List Ra, everyOf good rs = true → ∀ r ∈ rs, EmitsStates P (emitNode r)
  | [], _, _, hr => absurd hr List.not_mem_nil
  | q :: qs, h, r, hr => by
    rw [everyOf, Bool.and_eq_true] at h
    rcases List.mem_cons.mp hr with heq | hr
    · rw [heq]
      exact emitNode_states hP hgood q h.1
    · exact everyOf_states hP hgood qs h.2 r hr

end

/-- The states of the automaton of a tree. -/
theorem emitRegex_states (hP : Untargeted P) (hgood : GoodAtoms P good) {r : Ra} {re : SchRegex}
    (hr : r.every good = true) (h : emitRegex r = .ok re) : AllStates P re.states := by
  unfold emitRegex at h
  obtain ⟨⟨f, n⟩, hf, h⟩ := bind_ok h
  obtain ⟨⟨m, n'⟩, hm, h⟩ := bind_ok h
  have h₁ := emitNode_states hP hgood r hr [] f n (fun st hst => absurd hst List.not_mem_nil) hf
  have h₂ := nstate_states h₁ (hP.plain .match (by simp)) hm
  obtain rfl : (⟨fragThread n' f.tail (some m), f.entry.getD m, m⟩ : SchRegex) = re := by
    simpa using h
  exact thread_states hP h₂ _ _

end Emission

/-! ## Two runs of the search -/

section Search

variable {s t : List ℕ}

lemma isWordCp_foldCp (x : ℕ) : isWordCp (foldCp x) = isWordCp x := by
  rw [Bool.eq_iff_iff, isWordCp_iff, isWordCp_iff, foldCp_eq]
  split_ifs <;> omega

/-- Texts that differ in the case of their letters only. -/
def SameFold (s t : List ℕ) : Prop := s.map foldCp = t.map foldCp

lemma SameFold.length (h : SameFold s t) : s.length = t.length := by
  rw [← List.length_map foldCp, h, List.length_map]

lemma SameFold.take (h : SameFold s t) (n : ℕ) : SameFold (s.take n) (t.take n) := by
  unfold SameFold at *
  rw [List.map_take, h, List.map_take]

lemma wordAt_congr (h : SameFold s t) (pos : ℕ) : wordAt s pos = wordAt t pos := by
  have hword : ∀ u : List ℕ, wordAt u pos = ((u.map foldCp)[pos]?).any isWordCp := by
    intro u
    unfold wordAt
    rw [List.getElem?_map]
    cases u[pos]? with
    | none => rfl
    | some x => exact (isWordCp_foldCp x).symm
  rw [hword s, hword t, h]

lemma closureTargets_congr (h : SameFold s t) (st : RState) (pos : ℕ) :
    closureTargets s st pos = closureTargets t st pos := by
  unfold closureTargets wordBoundary
  rw [h.length, wordAt_congr h, wordAt_congr h]

lemma closure_congr (h : SameFold s t) (states : List RState) (mark : List ℤ) (gen : ℤ) (pos : ℕ) :
    closure s states mark gen pos = closure t states mark gen pos := by
  have hturn : closureTurn s states gen pos = closureTurn t states gen pos := by
    funext st
    have htargets : (fun rs => closureTargets s rs pos) = fun rs => closureTargets t rs pos :=
      funext fun rs => closureTargets_congr h rs pos
    unfold closureTurn
    rw [htargets]
  unfold closure
  rw [hturn]

variable {re : SchRegex} (hre : AllStates RState.CaseBlind re.states)

include hre

/-- A code point and its other case mark the same states. -/
lemma stepMarks_congr {cp cp' : ℕ} (hcp : foldCp cp = foldCp cp') (mark : List ℤ) (gen prev : ℤ) :
    stepMarks re.states mark gen prev cp = stepMarks re.states mark gen prev cp' := by
  have hstep : stepMark re.states gen prev cp = stepMark re.states gen prev cp' := by
    funext mark i
    unfold stepMark
    cases hi : re.states[i]? with
    | none => rfl
    | some st =>
      have hst := hre st (List.mem_of_getElem? hi)
      by_cases hk : st.kind = .char
      · simp only [(hst hk).congr hcp]
      · simp only [hk, false_and, if_false]
  unfold stepMarks
  rw [hstep]

/-- The inner loop goes the same way over both texts. -/
lemma searchAt_congr (h : SameFold s t) (rest : List ℕ) :
    ∀ rest' : List ℕ, SameFold rest rest' → ∀ pos gen mark,
      searchAt re s rest pos gen mark = searchAt re t rest' pos gen mark := by
  induction rest with
  | nil =>
    intro rest' hr pos gen mark
    obtain rfl : rest' = [] := List.length_eq_zero_iff.mp hr.length.symm
    rw [searchAt, searchAt]
  | cons cp rest ih =>
    intro rest' hr pos gen mark
    cases rest' with
    | nil => exact absurd hr.length (by simp)
    | cons cp' rest' =>
      obtain ⟨hcp, hr'⟩ := List.cons.inj hr
      rw [searchAt, searchAt]
      simp only
      rw [stepMarks_congr hre hcp, closure_congr h, ih rest' hr']

/-- The outer loop goes the same way over both texts. -/
lemma searchFrom_congr (h : SameFold s t) (rest : List ℕ) :
    ∀ rest' : List ℕ, SameFold rest rest' → ∀ start gen mark,
      searchFrom re s rest start gen mark = searchFrom re t rest' start gen mark := by
  induction rest with
  | nil =>
    intro rest' hr start gen mark
    obtain rfl : rest' = [] := List.length_eq_zero_iff.mp hr.length.symm
    rw [searchFrom, searchFrom, closure_congr h, searchAt_congr hre h [] [] rfl]
  | cons cp rest ih =>
    intro rest' hr start gen mark
    cases rest' with
    | nil => exact absurd hr.length (by simp)
    | cons cp' rest' =>
      have hr' : SameFold rest rest' := (List.cons.inj hr).2
      rw [searchFrom, searchFrom, closure_congr h, searchAt_congr hre h _ _ hr]
      simp only
      rw [ih rest' hr']

/-- The search does not tell the texts apart. -/
lemma schRegexSearch_congr (h : SameFold s t) (len : ℤ) :
    schRegexSearch re s len = schRegexSearch re t len := by
  unfold schRegexSearch
  have htake := h.take len.toNat
  simp only
  rw [searchFrom_congr hre htake _ _ htake]

end Search

/-! ## Texts of bytes -/

/-- A byte with a letter made small. -/
def lowerByte (b : UInt8) : UInt8 := if 0x41 ≤ b ∧ b ≤ 0x5A then b + 32 else b

lemma lowerByte_toNat (b : UInt8) : (lowerByte b).toNat = foldCp b.toNat := by
  have hall : ∀ b : UInt8, (lowerByte b).toNat = foldCp b.toNat := by decide +kernel
  exact hall b

/-- The bytes of longer sequences stay as they are. -/
lemma lowerByte_high (b : UInt8) : ((lowerByte b) < 0x80 ↔ b < 0x80) ∧
    (¬ b < 0x80 → lowerByte b = b) ∧ isTail (lowerByte b) = isTail b ∧
      (isTail b = true → lowerByte b = b) := by
  have hall : ∀ b : UInt8, ((lowerByte b) < 0x80 ↔ b < 0x80) ∧ (¬ b < 0x80 → lowerByte b = b) ∧
      isTail (lowerByte b) = isTail b ∧ (isTail b = true → lowerByte b = b) := by decide +kernel
  exact hall b

lemma tailsAhead_lower (k : ℕ) (rest : Bytes) :
    tailsAhead k (rest.map lowerByte) = tailsAhead k rest := by
  have htail : isTail ∘ lowerByte = isTail := funext fun b => (lowerByte_high b).2.2.1
  unfold tailsAhead
  rw [List.length_map, ← List.map_take, List.all_map, htail]

lemma gather_lower {k : ℕ} {rest : Bytes} (h : tailsAhead k rest = true) (lead : UInt8) :
    gather lead k (rest.map lowerByte) = gather lead k rest := by
  have htails : (rest.take k).all isTail = true := by
    unfold tailsAhead at h
    exact (of_decide_eq_true h).2
  have hsame : (rest.take k).map lowerByte = rest.take k := by
    conv_rhs => rw [← List.map_id (rest.take k)]
    refine List.map_congr_left fun b hb => ?_
    exact (lowerByte_high b).2.2.2 (List.all_eq_true.mp htails b hb)
  unfold gather
  rw [← List.map_take, hsame]

/-- A code point of the small text: the sequence is as long, and a letter is made small. -/
lemma decodeCp_lower (b : UInt8) (rest : Bytes) :
    decodeCp (lowerByte b) (rest.map lowerByte) =
      if b < 0x80 then (foldCp b.toNat, 0) else decodeCp b rest := by
  obtain ⟨hlt, hsame, -, -⟩ := lowerByte_high b
  unfold decodeCp
  by_cases hb : b < 0x80
  · rw [if_pos (hlt.mpr hb), if_pos hb, lowerByte_toNat]
  · rw [hsame hb, if_neg hb, if_neg hb, if_neg hb]
    simp only [tailsAhead_lower]
    split_ifs with h2 h3 h4
    · rw [gather_lower h2.2]
    · rw [gather_lower h3.2]
    · rw [gather_lower h4.2]
    · rfl

/-- The code points of a text and of its small text differ in case only. -/
lemma sameFold_lower (s : Bytes) :
    ∀ skip, SameFold (decodeFrom skip (s.map lowerByte)) (decodeFrom skip s) := by
  induction s with
  | nil =>
    intro skip
    cases skip <;> rfl
  | cons b rest ih =>
    intro skip
    cases skip with
    | succ skip => exact ih skip
    | zero =>
      have hcp := decodeCp_lower b rest
      rw [List.map_cons, decodeFrom, decodeFrom, hcp]
      split_ifs with hb
      · have hlow : decodeCp b rest = (b.toNat, 0) := by
          rw [decodeCp, if_pos hb]
        have hidem : foldCp (foldCp b.toNat) = foldCp b.toNat := by
          simp only [foldCp_eq]
          split_ifs <;> omega
        rw [hlow]
        exact congrArg₂ List.cons hidem (ih 0)
      · exact congrArg₂ List.cons rfl (ih _)

/-- Texts that differ in the case of their letters only have such code points. -/
lemma sameFold_decodeCps {s t : Bytes} (h : s.map lowerByte = t.map lowerByte) :
    SameFold (decodeCps s) (decodeCps t) := by
  have hs := sameFold_lower s 0
  rw [h] at hs
  exact hs.symm.trans (sameFold_lower t 0)

/-! ## The fold flag at the places -/

section Places

variable {table : List UcProp} {c₀ c : PCtx} {levels : ℕ}

/-- Of the places alone nothing has to be known. -/
lemma anyPlaces (table : List UcProp) (c₀ : PCtx) :
    GoodPlaces table c₀ (fun _ => true) True :=
  ⟨fun _ _ _ => rfl, fun _ _ _ _ _ => rfl,
    fun _ _ _ _ hp => ⟨fun r _ => every_true r, fun _ => .inr trivial, siteParse_fold hp⟩,
    fun _ _ _ _ _ _ _ => .inr trivial⟩

/-- The fold flag is the same at all places. -/
lemma concatAt_fold (h : ConcatAt table c₀ levels c) : c.fold = c₀.fold := by
  induction h with
  | start => rfl
  | @piece levels c c' r h hbar hr ih =>
    have hread := (rrepeat_gives (anyPlaces table c₀) (groupsGive (anyPlaces table c₀) levels)
      h).later.fold
    rw [hr] at hread
    exact hread.trans ih
  | @branch levels c c' r s h hr hs ih =>
    have hread := (rconcat_gives (anyPlaces table c₀) (groupsGive (anyPlaces table c₀) levels)
      h).later.fold
    rw [hr] at hread
    exact hread.trans ih
  | group h hs hg ih => exact ((groupHead_readsOn _).1 _ hg).fold.trans ih

end Places

/-! ## Atoms -/

/-- The text at a place asks for no property. -/
structure NoProperty (table : List UcProp) (c : PCtx) : Prop where
  /-- In brackets. -/
  bracket : ∀ s, c.s = 0x5B :: s → ∀ p negate, .property p negate ∉ membersOf table s
  /-- Outside brackets. -/
  escape : ∀ e s, c.s = '\\'.toNat :: e :: s → ¬ (e = 'p'.toNat ∨ e = 'P'.toNat)

/-- The text at a place is none of the kinds that come out for one case only: a single small letter
in brackets whose capital letter is not added for another member, and an escaped capital letter
outside brackets, where `\B` is an assertion. -/
structure FoldSound (table : List UcProp) (c : PCtx) : Prop where
  /-- In brackets. -/
  bracket : ∀ s, c.s = 0x5B :: s → ∀ cp, .one cp ∈ membersOf table s →
    'a'.toNat ≤ cp → cp ≤ 'z'.toNat → ∃ m ∈ membersOf table s, m.Holds true (cp - 32)
  /-- Outside brackets. -/
  escape : ∀ e s cp s', c.s = '\\'.toNat :: e :: s → e ≠ 'B'.toNat →
    unitText table '\\'.toNat (e :: s) = some (.cp cp, s') →
      ¬ ('A'.toNat ≤ cp ∧ cp ≤ 'Z'.toNat)

/-- A literal takes both cases. -/
lemma charAtom_caseBlind (cp : ℕ) : (charAtom true cp).CaseBlind := by
  have hchars : 'A'.toNat = 65 ∧ 'Z'.toNat = 90 ∧ 'a'.toNat = 97 ∧ 'z'.toNat = 122 := by decide
  obtain ⟨hA, hZ, ha, hz⟩ := hchars
  have hformed := charAtom_formed true cp
  simp only [Ra.wellFormed, charAtom, Ra.every, formedNode, if_true, Bool.true_and] at hformed
  intro x hxA hxZ
  rw [hA] at hxA
  rw [hZ] at hxZ
  simp only [if_true, Bool.true_and]
  rw [Bool.eq_iff_iff, charAccepts_iff (by simpa using hformed),
    charAccepts_iff (by simpa using hformed)]
  unfold CharAccepts
  simp only [hA, hZ, ha, hz, foldCp_eq, decide_eq_true_eq]
  split_ifs <;> omega

/-- An escaped code point does, unless it is a capital letter. -/
lemma escapedAtom_caseBlind {cp : ℕ} (h : ¬ ('A'.toNat ≤ cp ∧ cp ≤ 'Z'.toNat)) :
    (escapedAtom true cp).CaseBlind := by
  have hsame : escapedAtom true cp = charAtom true cp := by
    simp only [escapedAtom, charAtom, h, or_false]
  rw [hsame]
  exact charAtom_caseBlind cp

/-- The shorthands do. -/
lemma shorthand_caseBlind {e : ℕ} (he : e ∈ ['d', 'w', 's', 'D', 'W', 'S'].map Char.toNat)
    (negated : Bool) : (Ra.cls (shorthandRanges true e) negated).CaseBlind := by
  have hall : ∀ e ∈ ['d', 'w', 's', 'D', 'W', 'S'].map Char.toNat, ∀ i < 26,
      clsMatch { RState.new .char with ranges := shorthandRanges true e } (65 + i) =
        clsMatch { RState.new .char with ranges := shorthandRanges true e } (97 + i) := by
    decide +kernel
  intro x hxA hxZ
  change 65 ≤ x at hxA
  change x ≤ 90 at hxZ
  have hx := hall e he (x - 65) (by omega)
  rw [show 65 + (x - 65) = x by omega, show 97 + (x - 65) = x + 32 by omega] at hx
  cases negated with
  | false => exact hx
  | true => exact congrArg not hx

lemma cls_caseBlind {ranges : List RaRange} (hasc : ascendingRanges ranges = true)
    (h : ∀ x, 65 ≤ x → x ≤ 90 → (InRanges ranges x ↔ InRanges ranges (x + 32)))
    (negated : Bool) : (Ra.cls ranges negated).CaseBlind := by
  intro x hxA hxZ
  rw [Bool.eq_iff_iff, clsMatch_cls_iff hasc, clsMatch_cls_iff hasc, h x hxA hxZ]

/-- What the members of a class add holds both cases of a letter or neither. -/
lemma members_caseBlind {ms : List ClassMember} (hprop : ∀ p negate, .property p negate ∉ ms)
    (hsmall : ∀ cp, .one cp ∈ ms → 'a'.toNat ≤ cp → cp ≤ 'z'.toNat →
      ∃ m ∈ ms, m.Holds true (cp - 32)) {x : ℕ} (hxA : 65 ≤ x) (hxZ : x ≤ 90) :
    (∃ m ∈ ms, m.Holds true x) ↔ ∃ m ∈ ms, m.Holds true (x + 32) := by
  have hshorthand : ∀ e, ShorthandHolds e x ↔ ShorthandHolds e (x + 32) := by
    intro e
    unfold ShorthandHolds
    split_ifs
    · change 48 ≤ x ∧ x ≤ 57 ↔ 48 ≤ x + 32 ∧ x + 32 ≤ 57
      omega
    · rw [isWordCp_iff, isWordCp_iff]
      omega
    · change x ∈ [32, 9, 10, 13, 12, 11] ↔ x + 32 ∈ [32, 9, 10, 13, 12, 11]
      simp only [List.mem_cons, List.not_mem_nil, or_false]
      omega
  have hspan : ∀ y, SameCp true x y ↔ SameCp true (x + 32) y := by
    intro y
    unfold SameCp
    simp only [foldCp_eq, true_and]
    split_ifs <;> omega
  constructor
  · rintro ⟨m, hm, hx⟩
    cases m with
    | one cp =>
      have hcp : x = cp ∨ (true = true ∧ x = foldCp cp) := hx
      rw [foldCp_eq] at hcp
      refine ⟨_, hm, .inr ⟨rfl, ?_⟩⟩
      rw [foldCp_eq]
      split_ifs at hcp ⊢ <;> omega
    | span lo hi =>
      obtain ⟨y, h1, h2, hy⟩ := hx
      exact ⟨_, hm, y, h1, h2, (hspan y).mp hy⟩
    | shorthand e => exact ⟨_, hm, (hshorthand e).mp hx⟩
    | property p negate => exact absurd hm (hprop p negate)
  · rintro ⟨m, hm, hx⟩
    cases m with
    | one cp =>
      have hcp : x + 32 = cp ∨ (true = true ∧ x + 32 = foldCp cp) := hx
      by_cases hsame : x = cp
      · exact ⟨_, hm, .inl hsame⟩
      · have hcp' : cp = x + 32 := by
          rw [foldCp_eq] at hcp
          split_ifs at hcp <;> omega
        obtain ⟨m', hm', hx'⟩ := hsmall cp hm (by change 97 ≤ cp; omega) (by change cp ≤ 122; omega)
        rw [hcp', Nat.add_sub_cancel] at hx'
        exact ⟨m', hm', hx'⟩
    | span lo hi =>
      obtain ⟨y, h1, h2, hy⟩ := hx
      exact ⟨_, hm, y, h1, h2, (hspan y).mpr hy⟩
    | shorthand e => exact ⟨_, hm, (hshorthand e).mpr hx⟩
    | property p negate => exact absurd hm (hprop p negate)

section Sites

variable {table : List UcProp} {c : PCtx} {r : Ra} {good : Ra → Bool}
  (hgood : ∀ r : Ra, r.CaseBlind → good r = true)

include hgood

/-- A class in brackets. -/
lemma rclass_caseBlind (hfold : c.fold = true)
    (hprop : ∀ p negate, .property p negate ∉ membersOf table c.s)
    (hsmall : ∀ cp, .one cp ∈ membersOf table c.s → 'a'.toNat ≤ cp → cp ≤ 'z'.toNat →
      ∃ m ∈ membersOf table c.s, m.Holds true (cp - 32))
    (h : (rclass table c).1 = some r) : r.every good = true := by
  have hordered : ∀ m ∈ membersOf table c.s, m.Ordered := by
    intro m hm
    cases m with
    | property p negate => exact absurd hm (hprop p negate)
    | _ => exact membersOf_formed table c.s _ hm
  obtain ⟨c', -, hclass⟩ := rclass_members table c
  obtain ⟨hle, hin⟩ := members_spec hordered c.fold
  have hranges := addAll_ranges c.fold { cl := Cls.new.reserve 8, cap := 8 }
    (classMembers table true (classBody c.s).2).1
  rw [hclass] at h
  generalize ClsRoom.addAll c.fold { cl := Cls.new.reserve 8, cap := 8 }
    (classMembers table true (classBody c.s).2).1 = b at h hranges
  have hb : b.cl.ranges = (membersOf table c.s).flatMap (ClassMember.added c.fold) := hranges
  rw [← hb, hfold] at hin
  rw [← hb] at hle
  obtain ⟨hasc, hmerge⟩ := clsSortMerge_spec hle
  unfold ClsRoom.finish at h
  split_ifs at h
  obtain rfl := Option.some.inj h
  refine hgood _ (cls_caseBlind hasc (fun x hxA hxZ => ?_) _)
  rw [hmerge, hmerge, hin x (by omega), hin (x + 32) (by omega)]
  exact members_caseBlind hprop hsmall hxA hxZ

/-- An escape outside brackets. -/
lemma ratomEscape_caseBlind (hfold : c.fold = true)
    (hprop : ∀ e s, c.s = e :: s → ¬ (e = 'p'.toNat ∨ e = 'P'.toNat))
    (hcapital : ∀ e s cp s', c.s = e :: s → e ≠ 'B'.toNat →
      unitText table '\\'.toNat (e :: s) = some (.cp cp, s') →
        ¬ ('A'.toNat ≤ cp ∧ cp ≤ 'Z'.toNat))
    (h : (ratomEscape table c).1 = some r) : r.every good = true := by
  cases hs : c.s with
  | nil =>
    rw [ratomEscape, hs] at h
    cases h
  | cons e s =>
    by_cases hsh : e ∈ ['d', 'w', 's', 'D', 'W', 'S'].map Char.toNat
    · rw [ratomEscape_shorthand table hs hsh, hfold] at h
      obtain rfl := Option.some.inj h
      exact hgood _ (shorthand_caseBlind hsh _)
    have hp := hprop e s hs
    by_cases hB : e = 'B'.toNat
    · have hb : ¬ e = 'b'.toNat := by
        rw [hB]
        decide
      rw [ratomEscape, hs] at h
      simp only [if_neg hsh, if_neg hp, if_neg hb, if_pos hB] at h
      obtain rfl := Option.some.inj h
      exact hgood .nwordb trivial
    · obtain ⟨c', -, h' | h' | h' | ⟨cp, s', hunit, h'⟩⟩ := ratomEscape_other table (c := c)
        (by simpa [hs] using hsh) (by simpa [hs] using hp)
      · rw [h'] at h
        cases h
      · rw [h'] at h
        obtain rfl := Option.some.inj h
        exact hgood .wordb trivial
      · rw [h'] at h
        obtain rfl := Option.some.inj h
        exact hgood .nwordb trivial
      · rw [h', hfold] at h
        obtain rfl := Option.some.inj h
        rw [hs] at hunit
        exact hgood _ (escapedAtom_caseBlind (hcapital e s cp s' hs hB hunit))

/-- What is read at a sound place takes both cases of a letter or neither. -/
lemma siteParse_caseBlind {p : Parsed} (hfold : c.fold = true) (hscope : NoProperty table c)
    (hsound : FoldSound table c) (hp : siteParse table c = some p) (hr : p.1 = some r) :
    r.every good = true := by
  unfold siteParse at hp
  cases hs : c.s with
  | nil =>
    simp only [hs] at hp
    cases hp
  | cons ch s =>
    simp only [hs] at hp
    split_ifs at hp with hbracket hesc
    · obtain rfl := Option.some.inj hp
      rw [hbracket] at hs
      exact rclass_caseBlind hgood (c := { c with s := s }) hfold (hscope.bracket s hs)
        (hsound.bracket s hs) hr
    · obtain rfl := Option.some.inj hp
      rw [hesc] at hs
      refine ratomEscape_caseBlind hgood (c := { c with s := s }) hfold ?_ ?_ hr
      · intro e s' hs'
        exact hscope.escape e s' (hs.trans (congrArg _ hs'))
      · intro e s' cp s'' hs'
        exact hsound.escape e s' cp s'' (hs.trans (congrArg _ hs'))

end Sites

/-! ## Two texts -/

/-- In the tree of a folded pattern whose places are sound every atom takes both cases of a letter
or neither. -/
theorem regexTree_caseBlind {table : List UcProp} {pattern : Bytes} {good : Ra → Bool}
    (hgood : ∀ r : Ra, r.CaseBlind → good r = true) (hfold : (startCtx pattern).fold = true)
    (hscope : ∀ levels c, ConcatAt table (startCtx pattern) levels c → NoProperty table c)
    (hsound : ∀ levels c, ConcatAt table (startCtx pattern) levels c → FoldSound table c)
    {r : Ra} (hr : (regexTree table pattern).1 = some r) : r.every good = true := by
  have hplaces : GoodPlaces table (startCtx pattern) good True := by
    refine ⟨?_, ?_, ?_, fun _ _ _ _ _ _ _ => .inr trivial⟩
    · intro r hchar hcls
      refine hgood r ?_
      cases r with
      | char cp ci => exact absurd rfl (hchar cp ci)
      | cls ranges negated => exact absurd rfl (hcls ranges negated)
      | _ => trivial
    · intro levels c ch hc _
      refine hgood _ ?_
      rw [(concatAt_fold hc).trans hfold]
      exact charAtom_caseBlind ch
    · intro levels c p hc hp
      refine ⟨fun r hr => ?_, fun _ => .inr trivial, siteParse_fold hp⟩
      exact siteParse_caseBlind hgood ((concatAt_fold hc).trans hfold) (hscope levels c hc)
        (hsound levels c hc) hp hr
  exact (regexTree_gives hplaces).tree r hr

/-- No state of the automaton tells a capital letter from its small letter. -/
theorem schRegexCompile_caseBlind {table : List UcProp} {pattern : Bytes} {re : SchRegex}
    (hfold : (startCtx pattern).fold = true) (hre : schRegexCompile table pattern = .ok re)
    (hscope : ∀ levels c, ConcatAt table (startCtx pattern) levels c → NoProperty table c)
    (hsound : ∀ levels c, ConcatAt table (startCtx pattern) levels c → FoldSound table c) :
    AllStates RState.CaseBlind re.states := by
  classical
  have hP : Untargeted RState.CaseBlind := by
    refine ⟨?_, fun kind hk h => absurd h hk, fun _ x _ _ => rfl⟩
    intro st isB target hst hk
    cases isB <;> exact hst hk
  have hatoms : GoodAtoms RState.CaseBlind fun r => decide r.CaseBlind :=
    ⟨fun cp ci h _ => of_decide_eq_true h, fun ranges negated h _ => of_decide_eq_true h⟩
  have htree := @regexTree_caseBlind table pattern (fun r => decide r.CaseBlind)
    (fun r h => decide_eq_true h) hfold hscope hsound
  unfold schRegexCompile at hre
  generalize regexTree table pattern = p at hre htree
  obtain ⟨ast, c⟩ := p
  simp only at hre
  by_cases hover : c.overrun = true
  · rw [if_pos hover] at hre
    cases hre
  rw [if_neg hover] at hre
  cases ast with
  | none => cases hre
  | some ast =>
    by_cases hrest : c.s ≠ []
    · simp only [if_pos hrest] at hre
      cases hre
    simp only [if_neg hrest] at hre
    cases he : emitRegex ast with
    | error msg =>
      rw [he] at hre
      cases hre
    | ok re' =>
      rw [he] at hre
      obtain rfl : re' = re := Except.ok.inj hre
      exact emitRegex_states hP hatoms (htree rfl) he

/-- A pattern of one piece that begins no group has two places: in front of the piece and behind
it. -/
lemma concatAt_onePiece {table : List UcProp} {c₀ : PCtx} (hbar : c₀.s.head? ≠ some '|'.toNat)
    (hgroup : c₀.s.head? ≠ some '('.toNat)
    (hpiece : ∀ alt c, c.s = c₀.s → ∃ r, rrepeat table alt c = (some r, { c with s := [] }))
    {levels : ℕ} {c : PCtx} (h : ConcatAt table c₀ levels c) : c.s = c₀.s ∨ c.s = [] := by
  have hnil : ∀ alt (c : PCtx), c.s = [] → rrepeat table alt c = (none, c) := by
    intro alt c hs
    unfold rrepeat ratom
    simp only [hs]
  have hfront : ∀ alt (c : PCtx) pieces, c.s = c₀.s → ∃ r,
      rconcatTurn table alt (c, pieces) = .ok (.next ({ c with s := [] }, pieces ++ [r])) := by
    intro alt c pieces hs
    obtain ⟨r, hr⟩ := hpiece alt c hs
    have hno : ¬ c.s.head? = some '|'.toNat := hs ▸ hbar
    exact ⟨r, by simp only [rconcatTurn, if_neg hno, hr]⟩
  have hbehind : ∀ alt (c : PCtx) pieces, c.s = [] → ∃ r,
      rconcatTurn table alt (c, pieces) = .ok (.stop (r, c)) := by
    intro alt c pieces hs
    have hno : ¬ c.s.head? = some '|'.toNat := by
      rw [hs]
      simp
    simp only [rconcatTurn, if_neg hno, hnil alt c hs]
    split_ifs
    · exact ⟨_, rfl⟩
    · exact ⟨_, rfl⟩
  have hconcat : ∀ alt (c c' : PCtx) r, (c.s = c₀.s ∨ c.s = []) →
      rconcat table alt c = (some r, c') → c'.s = [] := by
    intro alt c c' r hc hr
    unfold rconcat at hr
    cases hl : Loop.loop (rconcatTurn table alt) () (fun st => st.1.s.length) (c, []) with
    | error e =>
      rw [hl] at hr
      cases hr
    | ok p =>
      rw [hl] at hr
      obtain rfl : p = (some r, c') := hr
      refine Loop.loop_invariant (I := fun st => st.1.s = c₀.s ∨ st.1.s = [])
        (Q := fun p : Parsed => p.2.s = []) ?_ ?_ hc hl
      · rintro ⟨c₁, pieces⟩ st' (hs | hs) ht
        · obtain ⟨piece, hp⟩ := hfront alt c₁ pieces hs
          rw [hp] at ht
          cases ht
          exact .inr rfl
        · obtain ⟨piece, hp⟩ := hbehind alt c₁ pieces hs
          rw [hp] at ht
          cases ht
      · rintro ⟨c₁, pieces⟩ p' (hs | hs) ht
        · obtain ⟨piece, hp⟩ := hfront alt c₁ pieces hs
          rw [hp] at ht
          cases ht
        · obtain ⟨piece, hp⟩ := hbehind alt c₁ pieces hs
          rw [hp] at ht
          cases ht
          exact hs
  induction h with
  | start => exact .inl rfl
  | piece h hbar hr ih =>
    rcases ih with hs | hs
    · obtain ⟨piece, hp⟩ := hpiece _ _ hs
      rw [hp] at hr
      cases hr
      exact .inr rfl
    · rw [hnil _ _ hs] at hr
      cases hr
  | branch h hr hs ih =>
    have hnone := hconcat _ _ _ _ ih hr
    rw [hs] at hnone
    cases hnone
  | group h hs hg ih =>
    rcases ih with hs' | hs'
    · rw [← hs', hs] at hgroup
      exact absurd rfl hgroup
    · rw [hs] at hs'
      cases hs'

/-- The letter `a`, in any case. -/
def foldedA : SchRegex where
  states := [{ RState.new .char with ranges := [⟨0x41, 0x41⟩, ⟨0x61, 0x61⟩], a := some 1 },
    .new .match]
  start := 0
  «match» := 1

/-- No negated shorthand stands at a place. -/
structure NoNegated (table : List UcProp) (c : PCtx) : Prop where
  /-- In brackets. -/
  bracket : ∀ s, c.s = 0x5B :: s → ∀ e, .shorthand e ∈ membersOf table s →
    isNegatedShorthand e = false
  /-- Outside brackets. -/
  escape : ∀ e s, c.s = '\\'.toNat :: e :: s → isNegatedShorthand e = false

end Teptris
