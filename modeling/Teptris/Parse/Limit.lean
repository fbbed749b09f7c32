import Teptris.Parse.FastPath
import Teptris.Parse.Run

/-!
# The depth limit

A parse does what a parse with a larger `max_depth` does, or it reports the depth: the limit only
ever replaces a result by that failure.
-/

namespace Teptris

open Loop

/-- A failure of the depth. -/
def Diag.IsDepth (e : Diag) : Prop := e.status = .errDepth

/-- One routine does what another one does, or reports the depth. -/
def Limited {α : Type} (f g : Bytes → Res α) : Prop := ∀ r, UpTo Diag.IsDepth (f r) (g r)

section Routines

variable {maxDepth maxDepth' : ℕ} {value value' : Bytes → Res Node}

lemma parseKeyPath_limited (hle : maxDepth ≤ maxDepth') :
    Limited (parseKeyPath maxDepth) (parseKeyPath maxDepth') := by
  intro r
  refine loop_upTo ?_ _
  intro s
  rw [keyPathTurn, keyPathTurn]
  cases keyPart (skipWs s.2) with
  | error e => exact .refl _
  | ok pr =>
    by_cases hdeep : maxDepth < s.1.length + 1
    · refine .inr ⟨_, if_pos hdeep, rfl⟩
    · have hroom : ¬ maxDepth' < s.1.length + 1 := by omega
      dsimp only
      rw [if_neg hdeep, if_neg hroom]
      exact .refl _

lemma keyvalGeneral_limited (hle : maxDepth ≤ maxDepth') (hvalue : Limited value value')
    (t : Entries) :
    Limited (keyvalGeneral maxDepth value t) (keyvalGeneral maxDepth' value' t) := by
  intro r
  rw [keyvalGeneral, keyvalGeneral]
  refine (parseKeyPath_limited hle r).elim (fun z => ?_) fun e _ he => .inr ⟨e, rfl, he⟩
  cases z with
  | error e => exact .refl _
  | ok pr =>
    dsimp only
    split_ifs
    · exact (hvalue _).elim (fun _ => .refl _) fun e _ he => .inr ⟨e, rfl, he⟩
    · exact .refl _

/-- The fast path takes the same lines with both value routines. -/
lemma tryKeyvalFast_limited (hvalue : Limited value value') (curPath : Bytes) (t : Entries)
    (r : Bytes) :
    (tryKeyvalFast curPath value t r = none ∧ tryKeyvalFast curPath value' t r = none) ∨
      ∃ x y, tryKeyvalFast curPath value t r = some x ∧
        tryKeyvalFast curPath value' t r = some y ∧ UpTo Diag.IsDepth x y := by
  by_cases htaken : r.head?.any isBareKey = true ∧
      (skipWs (scanBareKey r).2).head? = some Ch.eq
  · right
    simp only [tryKeyvalFast, if_pos htaken.1, if_pos htaken.2]
    refine (hvalue (skipWs ((skipWs (scanBareKey r).2).drop 1))).elim (fun z => ?_)
      fun e z he => ?_
    · obtain ⟨x, hx⟩ : ∃ x, tryKeyvalFast curPath (fun _ => z) t r = some x := by
        simp only [tryKeyvalFast, if_pos htaken.1, if_pos htaken.2]
        cases z with
        | error e => exact ⟨_, rfl⟩
        | ok v =>
          dsimp only
          cases probe (scanBareKey r).1 t with
          | some w => split_ifs <;> exact ⟨_, rfl⟩
          | none => exact ⟨_, rfl⟩
      simp only [tryKeyvalFast, if_pos htaken.1, if_pos htaken.2] at hx
      exact ⟨x, x, hx, hx, .refl _⟩
    · cases z with
      | error e' => exact ⟨_, _, rfl, rfl, .inr ⟨e, rfl, he⟩⟩
      | ok v =>
        dsimp only
        cases probe (scanBareKey r).1 t with
        | some w => split_ifs <;> exact ⟨_, _, rfl, rfl, .inr ⟨e, rfl, he⟩⟩
        | none => exact ⟨_, _, rfl, rfl, .inr ⟨e, rfl, he⟩⟩
  · left
    have hnone : ∀ v : Bytes → Res Node, tryKeyvalFast curPath v t r = none := by
      intro v
      simp only [tryKeyvalFast]
      by_cases hbare : r.head?.any isBareKey = true
      · rw [if_pos hbare, if_neg fun heq => htaken ⟨hbare, heq⟩]
      · rw [if_neg hbare]
    exact ⟨hnone value, hnone value'⟩

lemma keyval_limited (hle : maxDepth ≤ maxDepth') (hvalue : Limited value value')
    (curPath : Bytes) (t : Entries) :
    Limited (keyval curPath maxDepth value value t) (keyval curPath maxDepth' value' value' t) := by
  intro r
  rw [keyval, keyval]
  rcases tryKeyvalFast_limited hvalue curPath t r with ⟨hx, hy⟩ | ⟨x, y, hx, hy, hxy⟩
  · rw [hx, hy]
    exact keyvalGeneral_limited hle hvalue t r
  · rw [hx, hy]
    exact hxy

/-- The member loops. -/
lemma members_limited {α : Type} {member member' : α → Bytes → Res α}
    (hmember : ∀ a, Limited (member a) (member' a)) (close : UInt8)
    (unterminated expected : String) (a : α) :
    Limited (members close unterminated expected member a)
      (members close unterminated expected member' a) := by
  intro r
  refine loop_upTo ?_ _
  rintro ⟨a, r⟩
  simp only [memberTurn]
  split
  · exact .refl _
  · exact .refl _
  · split_ifs
    · exact .refl _
    · exact (hmember a _).elim (fun _ => .refl _) fun e _ he => .inr ⟨e, rfl, he⟩

lemma arrayBody_limited (hvalue : Limited value value') :
    Limited (arrayBody value) (arrayBody value') := by
  have hmember : ∀ items, Limited (arrayMember value items) (arrayMember value' items) := by
    intro items r
    rw [arrayMember, arrayMember]
    exact (hvalue r).elim (fun _ => .refl _) fun e _ he => .inr ⟨e, rfl, he⟩
  intro r
  rw [arrayBody, arrayBody]
  exact (members_limited hmember _ _ _ _ _).elim (fun _ => .refl _) fun e _ he => .inr ⟨e, rfl, he⟩

lemma inlineBody_limited {member member' : Entries → Bytes → Res Entries}
    (hmember : ∀ t, Limited (member t) (member' t)) :
    Limited (inlineBody member) (inlineBody member') := by
  intro r
  rw [inlineBody, inlineBody]
  exact (members_limited hmember _ _ _ _ _).elim (fun _ => .refl _) fun e _ he => .inr ⟨e, rfl, he⟩

lemma valueDispatch_limited (fc : FloatConv) {array array' inline inline' : Bytes → Res Node}
    (harray : Limited array array') (hinline : Limited inline inline') :
    Limited (valueDispatch fc array inline) (valueDispatch fc array' inline') := by
  intro r
  rcases valueDispatch_routine fc r with heq | heq | ⟨y, heq⟩
  · rw [heq, heq]
    exact harray r
  · rw [heq, heq]
    exact hinline r
  · rw [heq, heq]
    exact .refl _

end Routines

section Configs

variable {cfg cfg' : Config}

/-- A value with more levels left. -/
lemma parseValue_limited (hfc : cfg'.fc = cfg.fc) (hle : cfg.maxDepth ≤ cfg'.maxDepth)
    (curPath : Bytes) {levels levels' : ℕ} (hlevels : levels ≤ levels') :
    Limited (parseValue cfg curPath levels) (parseValue cfg' curPath levels') := by
  have hgate : ∀ f : Bytes → Res Node, Limited tooDeep f := fun f r => .inr ⟨_, rfl, rfl⟩
  induction levels generalizing levels' with
  | zero =>
    cases levels' with
    | zero =>
      rw [parseValue, parseValue, hfc]
      exact fun r => .refl _
    | succ levels' =>
      rw [parseValue_succ, parseValue, hfc]
      exact valueDispatch_limited _ (hgate _) (hgate _)
  | succ levels ih =>
    obtain _ | levels' := levels'
    · exact absurd hlevels (by omega)
    rw [parseValue_succ, parseValue_succ, hfc]
    have hvalue := ih (Nat.le_of_succ_le_succ hlevels)
    exact valueDispatch_limited _ (arrayBody_limited hvalue)
      (inlineBody_limited fun t => keyval_limited hle hvalue curPath t)

lemma parseHeader_limited (hle : cfg.maxDepth ≤ cfg'.maxDepth) (s : PState) :
    UpTo Diag.IsDepth (parseHeader cfg s) (parseHeader cfg' s) := by
  simp only [parseHeader]
  exact (parseKeyPath_limited hle _).elim (fun _ => .refl _) fun e _ he => .inr ⟨e, rfl, he⟩

/-- A statement under a larger limit. -/
lemma statement_limited (hfc : cfg'.fc = cfg.fc) (hle : cfg.maxDepth ≤ cfg'.maxDepth) (c : UInt8)
    (s : PState) : UpTo Diag.IsDepth (statement cfg c s) (statement cfg' c s) := by
  have hline : UpTo Diag.IsDepth (if c = Ch.lbrack then headerLine cfg s else keyvalLine cfg s)
      (if c = Ch.lbrack then headerLine cfg' s else keyvalLine cfg' s) := by
    split_ifs
    · rw [headerLine, headerLine]
      split
      · exact .refl _
      · exact .refl _
      · exact parseHeader_limited hle _
    · rw [keyvalLine, keyvalLine, parseKeyval, parseKeyval, parseValueFast_eq, parseValueFast_eq]
      exact (keyval_limited hle (parseValue_limited hfc hle _ hle) _ _ _).elim (fun _ => .refl _)
        fun e _ he => .inr ⟨e, rfl, he⟩
  rw [statement, statement]
  exact hline.elim (fun _ => .refl _) fun e _ he => .inr ⟨e, rfl, he⟩

/-- A parse under a larger limit. -/
lemma parse_limited (hfc : cfg'.fc = cfg.fc) (hle : cfg.maxDepth ≤ cfg'.maxDepth) (data : Bytes) :
    UpTo Diag.IsDepth (parse cfg data) (parse cfg' data) := by
  have hturn : ∀ s, UpTo Diag.IsDepth (lineTurn cfg s) (lineTurn cfg' s) := by
    intro s
    rw [lineTurn, lineTurn]
    split
    · exact .refl _
    · split_ifs
      · exact .refl _
      · exact .refl _
      · exact .refl _
      · exact .refl _
      · exact (statement_limited hfc hle _ _).map _
  refine UpTo.map ?_ _
  rw [parserRun, parserRun]
  split
  · exact .refl _
  · exact loop_upTo hturn _

/-- What is accepted is accepted under a larger limit, with the same tree. -/
theorem parse_mono (hfc : cfg'.fc = cfg.fc) (hle : cfg.maxDepth ≤ cfg'.maxDepth) {data : Bytes}
    {n : Node} (h : parse cfg data = .ok n) : parse cfg' data = .ok n :=
  (parse_limited hfc hle data).ok h

end Configs

end Teptris
