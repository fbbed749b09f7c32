import Teptris.Grammar.Keys
import Teptris.Grammar.Token

/-!
# Values by the grammar

`teptris_parse_value` reads the values of the grammar, each as what it denotes: a scalar, a
string, an array of values, or an inline table of pairs.
-/

namespace Teptris

open Loop

/-! ## Members -/

/-- A value ends in front of a gap and what stands behind a member. -/
lemma endsValue_gap {g q : Bytes} (hg : Toml.IsGap g)
    (hq : q.head? = some Ch.comma ∨ q.head? = some Ch.rbrack ∨ q.head? = some Ch.rbrace) :
    EndsValue (g ++ q) := by
  induction hg with
  | nil =>
    intro c hc
    have hws : ∀ c ∈ q.head?, isWs c = false := by
      intro c hc
      rcases hq with h | h | h
      all_goals
        rw [h] at hc
        obtain rfl := Option.some.inj hc
        rfl
    rw [List.nil_append, skipWs_self hws] at hc
    rcases hq with h | h | h
    all_goals
      rw [h] at hc
      obtain rfl := Option.some.inj hc
      simp
  | @ws c t hc ht ih =>
    intro d hd
    have hw : Toml.IsWs [c] := fun d hd => by rw [List.mem_singleton.mp hd]; exact hc
    rw [List.cons_append, ← List.singleton_append, skipWs_append hw] at hd
    exact ih d hd
  | newline hn ht ih =>
    intro d hd
    cases hn with
    | lf =>
      obtain rfl := Option.some.inj hd
      exact .inl rfl
    | crlf =>
      obtain rfl := Option.some.inj hd
      exact .inr (.inl rfl)
  | comment hc hn ht ih =>
    intro d hd
    obtain ⟨-⟩ := hc
    obtain rfl := Option.some.inj hd
    simp

/-- A byte that no gap starts with. -/
lemma endsGap_cons {c : UInt8}
    (hc : isWs c = false ∧ c ≠ Ch.lf ∧ c ≠ Ch.cr ∧ c ≠ Ch.hash) (q : Bytes) :
    EndsGap (c :: q) := by
  obtain ⟨hws, hlf, hcr, hhash⟩ := hc
  refine ⟨fun d hd => ?_, ?_, fun h => hhash (Option.some.inj h)⟩
  · obtain rfl := Option.some.inj hd
    exact hws
  · rw [startsNewline_iff]
    rintro (h | ⟨h, -⟩)
    · exact hlf (Option.some.inj h)
    · exact hcr (Option.some.inj h)

section Members

variable {α : Type} {P : α → Prop} {rel : α → Bytes → α → Prop} {close : UInt8}
  {unterminated expected : String} {member : α → Bytes → Res α} {a b : α} {r t q : Bytes}

/-- The closing brackets. -/
def IsClosing (close : UInt8) : Prop := close = Ch.rbrack ∨ close = Ch.rbrace

lemma IsClosing.endsGap (hclose : IsClosing close) (q : Bytes) : EndsGap (close :: q) := by
  rcases hclose with rfl | rfl
  · exact endsGap_cons (by decide) q
  · exact endsGap_cons (by decide) q

lemma IsClosing.head_of (hclose : IsClosing close) (h : q.head? = some close) :
    q.head? = some Ch.comma ∨ q.head? = some Ch.rbrack ∨ q.head? = some Ch.rbrace := by
  rcases hclose with rfl | rfl
  · exact .inr (.inl h)
  · exact .inr (.inr h)

/-- What is read as members is a member list. -/
lemma members_sound (hclose : IsClosing close) (hm : MemberOk P member)
    (hrel : ∀ a r b q, EndsGap r → member a r = .ok (b, q) → EndsValue q →
      ∃ t, r = t ++ q ∧ rel a t b)
    (h : members close unterminated expected member a r = .ok (b, q)) :
    ∃ t, r = t ++ q ∧ Toml.IsMembers rel close a t b := by
  refine loop_rec (members_shrinks hm) (P := fun s x => x = .ok (b, q) →
    ∃ t, s.2 = t ++ q ∧ Toml.IsMembers rel close s.1 t b) ?_ ?_ ?_ (a, r) h
  · intro s e _ hx
    cases hx
  · intro s x hturn hx
    obtain rfl := Except.ok.inj hx
    rw [memberTurn] at hturn
    split at hturn
    · cases hturn
    · exact absurd hturn failAt_ne_ok
    next c cs hgap =>
    obtain ⟨g, hsplit, hg, hends⟩ := skipArrayGap_sound hgap (by simp)
    split_ifs at hturn with hc
    · obtain ⟨rfl, rfl⟩ := Prod.mk.inj (Turn.stop.inj (Except.ok.inj hturn))
      exact ⟨g ++ [close], by rw [hsplit, hc, List.append_assoc]; rfl, .close hg⟩
    split at hturn
    · cases hturn
    next b' r' hmember =>
    split at hturn
    · cases hturn
    next r'' hgap' =>
    split_ifs at hturn with hcomma hend
    · cases hturn
    · obtain ⟨rfl, rfl⟩ := Prod.mk.inj (Turn.stop.inj (Except.ok.inj hturn))
      obtain ⟨q, rfl⟩ := List.head?_eq_some_iff.mp hend
      obtain ⟨g', rfl, hg', -⟩ := skipArrayGap_sound hgap' (by simp)
      obtain ⟨t, ht, hrel⟩ := hrel _ _ _ _ hends hmember (endsValue_gap hg' (hclose.head_of hend))
      refine ⟨_, ?_, .last hg hrel hg'⟩
      rw [hsplit, ht]
      simp only [List.append_assoc, List.cons_append, List.nil_append, List.drop_succ_cons,
        List.drop_zero]
    · exact absurd hturn failAt_ne_ok
  · intro s s' x hturn ih hx
    obtain ⟨u, hu, hmembers⟩ := ih hx
    rw [memberTurn] at hturn
    split at hturn
    · cases hturn
    · exact absurd hturn failAt_ne_ok
    next c cs hgap =>
    obtain ⟨g, hsplit, hg, hends⟩ := skipArrayGap_sound hgap (by simp)
    split_ifs at hturn with hc
    · cases hturn
    split at hturn
    · cases hturn
    next b' r' hmember =>
    split at hturn
    · cases hturn
    next r'' hgap' =>
    split_ifs at hturn with hcomma hend
    · obtain rfl := Turn.next.inj (Except.ok.inj hturn)
      obtain ⟨r, rfl⟩ := List.head?_eq_some_iff.mp hcomma
      obtain ⟨g', rfl, hg', -⟩ := skipArrayGap_sound hgap' (by simp)
      obtain ⟨t, ht, hrel⟩ := hrel _ _ _ _ hends hmember (endsValue_gap hg' (.inl hcomma))
      refine ⟨_, ?_, .more hg hrel hg' hmembers⟩
      rw [hsplit, ht]
      dsimp only [List.drop_succ_cons, List.drop_zero] at hu
      rw [List.drop_succ_cons, List.drop_zero] at hu
      rw [hu]
      simp only [List.append_assoc, List.cons_append]
    · cases hturn
    · exact absurd hturn failAt_ne_ok

/-- A member list is read. -/
lemma members_complete (unterminated expected : String) (hclose : IsClosing close)
    (hm : MemberOk P member)
    (hrel : ∀ a t b q, rel a t b → EndsValue q → member a (t ++ q) = .ok (b, q))
    (hhead : ∀ a t b, rel a t b → ∃ c u, t = c :: u ∧ c ≠ close ∧ ∀ q, EndsGap (c :: q))
    (ht : Toml.IsMembers rel close a t b) (q : Bytes) :
    members close unterminated expected member a (t ++ q) = .ok (b, q) := by
  -- a member behind its gap, in front of another one
  have hturn : ∀ {a b : α} {g t g' : Bytes} {c : UInt8} (q : Bytes), Toml.IsGap g → rel a t b →
      Toml.IsGap g' → EndsGap (c :: q) → c = Ch.comma ∨ c = close →
      memberTurn close unterminated expected member (a, g ++ (t ++ (g' ++ c :: q))) =
        if c = Ch.comma then .ok (.next (b, q)) else .ok (.stop (b, q)) := by
    intro a b g t g' c q hg h hg' hends hc
    obtain ⟨d, u, rfl, hd, hgap⟩ := hhead a t b h
    have hvalue : EndsValue (g' ++ c :: q) := by
      refine endsValue_gap hg' ?_
      rcases hc with rfl | rfl
      · exact .inl rfl
      · exact hclose.head_of rfl
    rw [memberTurn, List.cons_append, skipArrayGap_complete hg (hgap _) (by simp)]
    dsimp only
    rw [if_neg hd, ← List.cons_append, hrel _ _ _ _ h hvalue]
    dsimp only
    rw [skipArrayGap_complete hg' hends (by simp)]
    dsimp only
    by_cases hcomma : c = Ch.comma
    · subst hcomma
      rfl
    · obtain rfl := hc.resolve_left hcomma
      have hhead : (c :: q).head? ≠ some Ch.comma := fun h => hcomma (Option.some.inj h)
      rw [if_neg hcomma, if_neg hhead, if_pos (show (c :: q).head? = some c from rfl)]
      rfl
  have hcomma : ∀ q, EndsGap (Ch.comma :: q) := endsGap_cons (by decide)
  have hne : close ≠ Ch.comma := by rcases hclose with rfl | rfl <;> decide
  induction ht with
  | @close a g hg =>
    refine loop_stop ?_
    rw [memberTurn, List.append_assoc, List.singleton_append,
      skipArrayGap_complete hg (hclose.endsGap q) (by simp)]
    dsimp only
    rw [if_pos rfl]
  | @last a b g t g' hg h hg' =>
    refine loop_stop ?_
    have := hturn q hg h hg' (hclose.endsGap q) (.inr rfl)
    rw [if_neg hne] at this
    rw [← this]
    simp only [List.append_assoc, List.singleton_append]
  | @more a b c g t g' u hg h hg' _ ih =>
    have := hturn (u ++ q) hg h hg' (hcomma _) (.inl rfl)
    rw [if_pos rfl] at this
    rw [← ih, members, members, ← loop_next (members_shrinks hm) this]
    simp only [List.append_assoc, List.cons_append]

end Members

/-! ## Pairs -/

/-- What a pair does to the table it is written into, along the parts in front of its last key:
the last key is new, and the tables on the way are those that dotted keys make. -/
def define (k : Key) (v : Node) : List Key → Entries → Option Entries
  | [], t =>
    match probe k t with
    | some _ => none
    | none => some (insert t k v)
  | part :: rest, t =>
    match probe part t with
    | none => (define k v rest []).map fun es => insert t part (.table .dotted es)
    | some (.table .dotted es) =>
      (define k v rest es).map fun es => setValue part (.table .dotted es) t
    | some _ => none

/-- A pair, from the table in front of it to the table behind it. -/
inductive IsPair (maxDepth : ℕ) (value : Bytes → Node → Prop) : Entries → Bytes → Entries → Prop
  | mk {t t' : Entries} {k w w' u : Bytes} {path : KeyPath} {v : Node}
      (hk : Toml.IsPath k (path.parts.map Key.bytes)) (hlen : path.count ≤ maxDepth)
      (hw : Toml.IsWs w) (hw' : Toml.IsWs w') (hv : value u v)
      (ht : define path.last v path.parents t = some t') :
      IsPair maxDepth value t (k ++ (w ++ Ch.eq :: (w' ++ u))) t'

section Pairs

variable {path : KeyPath} {ps : List Key} {v : Node} {t t' : Entries} {pos r q u : Bytes}
  {maxDepth : ℕ} {value : Bytes → Res Node} {rel : Bytes → Node → Prop}

/-- `insert_dotted` defines the last key of its path. -/
lemma insertDotted_iff :
    insertDotted pos path v ps t = .ok t' ↔ define path.last v ps t = some t' := by
  induction ps generalizing t t' with
  | nil =>
    rw [insertDotted, define]
    cases probe path.last t with
    | some w =>
      dsimp only
      split_ifs <;> simp [failNaming]
    | none => simp
  | cons part rest ih =>
    rw [insertDotted, define]
    cases probe part t with
    | none =>
      dsimp only
      cases h : insertDotted pos path v rest [] with
      | error e =>
        have : define path.last v rest [] = none :=
          Option.eq_none_iff_forall_ne_some.mpr fun es hes => by
            rw [ih.mpr hes] at h
            cases h
        simp [this]
      | ok es => simp [ih.mp h]
    | some w =>
      cases w with
      | table flag es =>
        dsimp only
        cases flag with
        | dotted =>
          rw [if_neg (by decide), if_neg (by decide)]
          cases h : insertDotted pos path v rest es with
          | error e =>
            have : define path.last v rest es = none :=
              Option.eq_none_iff_forall_ne_some.mpr fun es hes => by
                rw [ih.mpr hes] at h
                cases h
            simp [this]
          | ok es => simp [ih.mp h]
        | _ => simp [failNaming]
      | _ => simp [failNaming]

/-- What is read as a pair is one. -/
lemma keyvalGeneral_sound (hr : ∀ c ∈ r.head?, isWs c = false)
    (hvalue : ∀ r v q, value r = .ok (v, q) → EndsValue q → ∃ w, r = w ++ q ∧ rel w v)
    (h : keyvalGeneral maxDepth value t r = .ok (t', q)) (hq : EndsValue q) :
    ∃ u, r = u ++ q ∧ IsPair maxDepth rel t u t' := by
  rw [keyvalGeneral] at h
  split at h
  · cases h
  next path s hpath =>
  have hcount := (parseKeyPath_spec hpath).2.2
  obtain ⟨w₀, k, w, hw₀, hw, hk, hsplit⟩ := parseKeyPath_sound hpath
  have hnil : w₀ = [] := by
    cases w₀ with
    | nil => rfl
    | cons c w₀ =>
      have hc : isWs c = true := hw₀ c (by simp)
      rw [hr c (by rw [hsplit]; rfl)] at hc
      cases hc
  dsimp only at h
  split_ifs at h with heq
  swap
  · exact absurd h failAt_ne_ok
  split at h
  · cases h
  next v q' hv =>
  split at h
  · cases h
  next es hes =>
  obtain ⟨rfl, rfl⟩ := Prod.mk.inj (Except.ok.inj h)
  obtain ⟨u, hu, hrel⟩ := hvalue _ _ _ hv hq
  obtain ⟨x, hx⟩ := List.head?_eq_some_iff.mp heq
  obtain ⟨w₁, hs, hw₁⟩ := skipWs_split s
  obtain ⟨w₂, hs', hw₂⟩ := skipWs_split x
  rw [hx, List.drop_succ_cons, List.drop_zero] at hu
  rw [hu] at hs'
  refine ⟨_, ?_, .mk hk hcount (hw.append hw₁) hw₂ hrel (insertDotted_iff.mp hes)⟩
  calc r = k ++ (w ++ s) := by rw [hsplit, hnil, List.nil_append]
    _ = k ++ (w ++ (w₁ ++ Ch.eq :: (w₂ ++ (u ++ q')))) := by rw [← hs', ← hx, ← hs]
    _ = _ := by simp only [List.append_assoc, List.cons_append]

/-- A pair is read. -/
lemma keyvalGeneral_complete
    (hvalue : ∀ w v q, rel w v → EndsValue q → value (w ++ q) = .ok (v, q))
    (hhead : ∀ w v, rel w v → ∃ c u, w = c :: u ∧ isWs c = false)
    (h : IsPair maxDepth rel t u t') (hq : EndsValue q) :
    keyvalGeneral maxDepth value t (u ++ q) = .ok (t', q) := by
  obtain @⟨t', k, w, w', u, path, v, hk, hlen, hw, hw', hv, ht⟩ := h
  have hends : EndsPath (Ch.eq :: (w' ++ (u ++ q))) := by
    intro c hc
    obtain rfl := Option.some.inj hc
    decide
  have hpath : parseKeyPath maxDepth (k ++ (w ++ Ch.eq :: (w' ++ u)) ++ q) =
      .ok (path, Ch.eq :: (w' ++ (u ++ q))) := by
    rw [← parseKeyPath_complete hk .nil hw hends hlen]
    simp only [List.append_assoc, List.cons_append, List.nil_append]
  have hskip : skipWs (w' ++ (u ++ q)) = u ++ q := by
    obtain ⟨c, u, rfl, hc⟩ := hhead u v hv
    rw [skipWs_append hw', List.cons_append, skipWs_cons _ hc]
  have heq : skipWs (Ch.eq :: (w' ++ (u ++ q))) = Ch.eq :: (w' ++ (u ++ q)) :=
    skipWs_cons _ (by decide)
  rw [keyvalGeneral, hpath]
  dsimp only
  rw [heq, List.head?_cons, if_pos rfl, List.drop_succ_cons, List.drop_zero, hskip,
    hvalue _ _ _ hv hq]
  dsimp only
  rw [insertDotted_iff.mpr ht]

end Pairs

/-! ## Values -/

/-- A value with no value inside. -/
inductive IsFlat (fc : FloatConv) : Bytes → Node → Prop
  | token {w : Bytes} {v : Node} (h : IsToken fc w v) : IsFlat fc w v
  | string {w s : Bytes} (h : Toml.IsString w s) : IsFlat fc w (.string s)

/-- An element of an array, behind the elements in front of it. -/
def IsElement (value : Bytes → Node → Prop) (items : List Node) (t : Bytes)
    (items' : List Node) : Prop :=
  ∃ v, value t v ∧ items' = items ++ [v]

/-- A value over the values inside it. -/
inductive IsNested (cfg : Config) (inner : Bytes → Node → Prop) : Bytes → Node → Prop
  | flat {w : Bytes} {v : Node} (h : IsFlat cfg.fc w v) : IsNested cfg inner w v
  | array {t : Bytes} {items : List Node}
      (h : Toml.IsMembers (IsElement inner) Ch.rbrack [] t items) :
      IsNested cfg inner (Ch.lbrack :: t) (.array false items)
  | inline {t : Bytes} {es : Entries}
      (h : Toml.IsMembers (IsPair cfg.maxDepth inner) Ch.rbrace [] t es) :
      IsNested cfg inner (Ch.lbrace :: t) (.table .inline es)

/-- A value with at most that many levels of nesting, and what it denotes. -/
def IsValueText (cfg : Config) : ℕ → Bytes → Node → Prop
  | 0 => IsFlat cfg.fc
  | levels + 1 => IsNested cfg (IsValueText cfg levels)

section Values

variable {cfg : Config} {cp w r q : Bytes} {v : Node} {levels : ℕ}

lemma endsValue_nil : EndsValue [] := fun _ hc => by cases hc

lemma isToken_head (h : IsToken cfg.fc w v) : ∃ c u, w = c :: u ∧ isTokenByte c = true := by
  have hread : parseValue cfg [] 0 (w ++ []) = .ok (v, []) := scalar_complete endsValue_nil h
  rw [List.append_nil] at hread
  have hscalar : (∀ b, v ≠ .boolean b) → (∀ s, v ≠ .string s) → (∀ items, v ≠ .array false items) →
      (∀ es, v ≠ .table .inline es) → ∃ c u, w = c :: u ∧ isTokenByte c = true := by
    intro hboolean hstring harray htable
    obtain ⟨c, u, rfl, hc⟩ := (parseValue_scalar_iff hstring hboolean harray htable).mp hread
    refine ⟨c, u, rfl, ?_⟩
    rcases hc with ⟨rfl | rfl, -⟩ | ⟨rfl | rfl, -⟩ | ⟨hdec, -⟩ | ⟨hdec, -⟩
    all_goals
      first
      | decide
      | exact isTokenByte_of_isDec c hdec
  cases h with
  | boolean b => cases b <;> exact ⟨_, _, rfl, by decide⟩
  | integer h hlen => exact hscalar (by simp) (by simp) (by simp) (by simp)
  | @datetime _ x h =>
    obtain ⟨kind, dt, hnode⟩ : ∃ kind dt, datetimeNode x = .datetime kind dt := by
      cases x <;> exact ⟨_, _, rfl⟩
    rw [hnode] at hscalar
    exact hscalar (by simp) (by simp) (by simp) (by simp)
  | float h => exact hscalar (by simp) (by simp) (by simp) (by simp)

lemma isString_head {t s : Bytes} (h : Toml.IsString t s) :
    ∃ basic u, t = Toml.quote basic :: u := by
  rcases h with h | h
  · obtain @⟨basic, t, s, -⟩ := h
    exact ⟨basic, _, rfl⟩
  · cases h with
    | @newline basic => exact ⟨basic, _, rfl⟩
    | @plain basic => exact ⟨basic, _, rfl⟩

lemma isFlat_head (h : IsFlat cfg.fc w v) : ∃ c u, w = c :: u ∧ isWs c = false ∧
    c ≠ Ch.lf ∧ c ≠ Ch.cr ∧ c ≠ Ch.hash ∧ c ≠ Ch.rbrack := by
  have htoken : ∀ c, isTokenByte c = true → isWs c = false ∧ c ≠ Ch.lf ∧ c ≠ Ch.cr ∧
      c ≠ Ch.hash ∧ c ≠ Ch.rbrack := by
    intro c hc
    refine ⟨isWs_of_isTokenByte hc, ?_, ?_, ?_, ?_⟩ <;> exact ne_of_isTokenByte hc (by decide)
  cases h with
  | token h =>
    obtain ⟨c, u, rfl, hc⟩ := isToken_head h
    exact ⟨c, u, rfl, htoken c hc⟩
  | string h =>
    obtain ⟨basic, u, rfl⟩ := isString_head h
    exact ⟨_, u, rfl, by cases basic <;> decide⟩

/-- The first byte of a value. -/
lemma isValueText_head (h : IsValueText cfg levels w v) : ∃ c u, w = c :: u ∧ isWs c = false ∧
    c ≠ Ch.lf ∧ c ≠ Ch.cr ∧ c ≠ Ch.hash ∧ c ≠ Ch.rbrack := by
  cases levels with
  | zero => exact isFlat_head h
  | succ levels =>
    cases h with
    | flat h => exact isFlat_head h
    | array h => exact ⟨_, _, rfl, by decide⟩
    | inline h => exact ⟨_, _, rfl, by decide⟩

/-- What is read as a flat value is one, whatever stands for the routines of the containers. -/
lemma flat_sound (hq : EndsValue q)
    (h : (∃ basic, r.head? = some (Toml.quote basic)) ∧ parseString r = .ok (v, q) ∨
      (∀ array inline, valueDispatch cfg.fc array inline r = .ok (v, q)) ∧
        ((∃ b, v = .boolean b) ∨ v.IsNumber ∨ ∃ kind dt, v = .datetime kind dt)) :
    ∃ w, r = w ++ q ∧ IsFlat cfg.fc w v := by
  rcases h with ⟨⟨basic, hr⟩, h⟩ | ⟨h, hv⟩
  · have hquote : r.head? = some Ch.dquote ∨ r.head? = some Ch.squote := by
      cases basic
      · exact .inr hr
      · exact .inl hr
    obtain ⟨t, s, rfl, rfl, hs⟩ := parseString_sound hquote h
    exact ⟨t, rfl, .string hs⟩
  · obtain ⟨w, rfl, hw⟩ := scalar_sound hq h hv
    exact ⟨w, rfl, .token hw⟩

/-- The inline tables of `teptris_parse_value` have the pairs of the general route. -/
lemma keyval_ok_iff {value : Bytes → Res Node} {t t' : Entries} :
    keyval cp cfg.maxDepth value value t r = .ok (t', q) ↔
      keyvalGeneral cfg.maxDepth value t r = .ok (t', q) := by
  have hplaced : placed (keyval cp cfg.maxDepth value value t r) = _ :=
    placed_keyval cfg.maxDepth_pos value t r
  constructor
  · intro h
    rw [h] at hplaced
    exact ok_of_placed hplaced.symm
  · intro h
    rw [h] at hplaced
    exact ok_of_placed hplaced

/-- What is read as a value is one. -/
lemma value_sound (h : parseValue cfg cp levels r = .ok (v, q)) (hq : EndsValue q) :
    ∃ w, r = w ++ q ∧ IsValueText cfg levels w v := by
  induction levels generalizing r v q with
  | zero =>
    rcases valueDispatch_cases h with h | ⟨-, h⟩ | ⟨-, h⟩ | h
    · exact flat_sound hq (.inl h)
    · exact absurd h failAt_ne_ok
    · exact absurd h failAt_ne_ok
    · exact flat_sound hq (.inr h)
  | succ levels ih =>
    rw [parseValue_succ] at h
    have hvalue := parseValue_ok cfg cp levels
    rcases valueDispatch_cases h with h | ⟨hr, h⟩ | ⟨hr, h⟩ | h
    · obtain ⟨w, hw, hflat⟩ := flat_sound hq (.inl h)
      exact ⟨w, hw, .flat hflat⟩
    · rw [arrayBody] at h
      split at h
      · cases h
      next items q' hmembers =>
      obtain ⟨rfl, rfl⟩ := Prod.mk.inj (Except.ok.inj h)
      obtain ⟨r, rfl⟩ := List.head?_eq_some_iff.mp hr
      have helement : ∀ items r items' q, EndsGap r →
          arrayMember (parseValue cfg cp levels) items r = .ok (items', q) → EndsValue q →
          ∃ t, r = t ++ q ∧ IsElement (IsValueText cfg levels) items t items' := by
        intro items r items' q _ hmember hq
        rw [arrayMember] at hmember
        split at hmember
        · cases hmember
        next v q' hv =>
        obtain ⟨rfl, rfl⟩ := Prod.mk.inj (Except.ok.inj hmember)
        obtain ⟨w, hw, htext⟩ := ih hv hq
        exact ⟨w, hw, v, htext, rfl⟩
      obtain ⟨t, ht, hlist⟩ := members_sound (.inl rfl) (arrayMember_ok hvalue) helement hmembers
      rw [List.drop_succ_cons, List.drop_zero] at ht
      exact ⟨Ch.lbrack :: t, by rw [ht, List.cons_append], .array hlist⟩
    · rw [inlineBody] at h
      split at h
      · cases h
      next es q' hmembers =>
      obtain ⟨rfl, rfl⟩ := Prod.mk.inj (Except.ok.inj h)
      obtain ⟨r, rfl⟩ := List.head?_eq_some_iff.mp hr
      obtain ⟨t, ht, hlist⟩ := members_sound (.inr rfl)
        (keyval_ok hvalue hvalue extends_isValue fun v hv => hv.1)
        (fun a r b q hgap hmember hq => keyvalGeneral_sound hgap.ws (fun _ _ _ hv hq => ih hv hq)
          (keyval_ok_iff.mp hmember) hq) hmembers
      rw [List.drop_succ_cons, List.drop_zero] at ht
      exact ⟨Ch.lbrace :: t, by rw [ht, List.cons_append], .inline hlist⟩
    · obtain ⟨w, hw, hflat⟩ := flat_sound hq (.inr h)
      exact ⟨w, hw, .flat hflat⟩

/-- A string is read, at every level. -/
lemma string_complete {s : Bytes} (h : Toml.IsString w s)
    (hq : ∀ basic, q.head? ≠ some (Toml.quote basic)) :
    parseValue cfg cp levels (w ++ q) = .ok (.string s, q) := by
  have hread := parseString_complete h hq
  obtain ⟨basic, u, rfl⟩ := isString_head h
  have hdispatch : ∀ array inline,
      valueDispatch cfg.fc array inline (Toml.quote basic :: u ++ q) = .ok (.string s, q) := by
    intro array inline
    rw [← hread]
    cases basic <;> rfl
  cases levels with
  | zero => exact hdispatch _ _
  | succ levels =>
    rw [parseValue_succ]
    exact hdispatch _ _

/-- A flat value is read, at every level. -/
lemma flat_complete (h : IsFlat cfg.fc w v) (hq : EndsValue q) :
    parseValue cfg cp levels (w ++ q) = .ok (v, q) := by
  cases h with
  | token h => exact scalar_complete hq h
  | string h =>
    refine string_complete h fun basic hc => ?_
    rcases hq.head _ hc with hc | hc | hc | hc | hc | hc | hc <;> cases basic <;>
      exact absurd hc (by decide)

/-- A value is read up to its end. -/
lemma value_complete (h : IsValueText cfg levels w v) (hq : EndsValue q) :
    parseValue cfg cp levels (w ++ q) = .ok (v, q) := by
  induction levels generalizing w v q with
  | zero => exact flat_complete h hq
  | succ levels ih =>
    have hvalue := parseValue_ok cfg cp levels
    cases h with
    | flat h => exact flat_complete h hq
    | @array t items h =>
      have helement : ∀ items t items' q, IsElement (IsValueText cfg levels) items t items' →
          EndsValue q →
          arrayMember (parseValue cfg cp levels) items (t ++ q) = .ok (items', q) := by
        rintro items t items' q ⟨v, hv, rfl⟩ hq
        rw [arrayMember, ih hv hq]
      have hread := members_complete "unterminated array" "expected ',' or ']'" (.inl rfl)
        (arrayMember_ok hvalue) helement
        (fun items t items' helem => by
          obtain ⟨v, hv, -⟩ := helem
          obtain ⟨c, u, ht, hws, hlf, hcr, hhash, hclose⟩ := isValueText_head hv
          exact ⟨c, u, ht, hclose, endsGap_cons ⟨hws, hlf, hcr, hhash⟩⟩) h q
      rw [parseValue_succ]
      change arrayBody (parseValue cfg cp levels) (Ch.lbrack :: t ++ q) = _
      rw [arrayBody, List.cons_append, List.drop_succ_cons, List.drop_zero, hread]
    | @inline t es h =>
      have hmember : MemberOk (GoodEntries IsValue) (keyval cp cfg.maxDepth
          (parseValue cfg cp levels) (parseValue cfg cp levels)) :=
        keyval_ok hvalue hvalue extends_isValue fun v hv => hv.1
      have hread := members_complete "unterminated inline table" "expected ',' or '\x7d'"
        (.inr rfl) hmember
        (fun a t b q hpair hq => keyval_ok_iff.mpr
          (keyvalGeneral_complete (fun _ _ _ hv hq => ih hv hq) (fun w v hv => by
            obtain ⟨c, u, ht, hws, -⟩ := isValueText_head hv
            exact ⟨c, u, ht, hws⟩) hpair hq))
        (fun a t b hpair => by
          obtain ⟨hk, -⟩ := hpair
          obtain ⟨c, u, rfl, hws, hlf, hcr, hhash, -, hclose⟩ := isPath_head hk
          exact ⟨c, _, rfl, hclose, endsGap_cons ⟨hws, hlf, hcr, hhash⟩⟩) h q
      rw [parseValue_succ]
      change inlineBody _ (Ch.lbrace :: t ++ q) = _
      rw [inlineBody, List.cons_append, List.drop_succ_cons, List.drop_zero, hread]

/-- A string comes from the string routine. -/
lemma parseValue_string {s : Bytes} (h : parseValue cfg cp levels r = .ok (.string s, q)) :
    (∃ basic, r.head? = some (Toml.quote basic)) ∧ parseString r = .ok (.string s, q) := by
  have harray : ∀ value, arrayBody value r ≠ .ok (.string s, q) := by
    intro value h
    rw [arrayBody] at h
    split at h
    · cases h
    · cases (Prod.mk.inj (Except.ok.inj h)).1
  have hinline : ∀ member, inlineBody member r ≠ .ok (.string s, q) := by
    intro member h
    rw [inlineBody] at h
    split at h
    · cases h
    · cases (Prod.mk.inj (Except.ok.inj h)).1
  cases levels with
  | zero =>
    rcases valueDispatch_cases h with h | ⟨-, h⟩ | ⟨-, h⟩ | ⟨-, ⟨b, h⟩ | h | ⟨kind, dt, h⟩⟩
    · exact h
    · exact absurd h failAt_ne_ok
    · exact absurd h failAt_ne_ok
    · cases h
    · exact h.elim
    · cases h
  | succ levels =>
    rcases valueDispatch_cases h with h | ⟨-, h⟩ | ⟨-, h⟩ | ⟨-, ⟨b, h⟩ | h | ⟨kind, dt, h⟩⟩
    · exact h
    · exact absurd h (harray _)
    · exact absurd h (hinline _)
    · cases h
    · exact h.elim
    · cases h

/-- In front of anything but another quote, a text is read as a string exactly where it is a string
of the grammar: basic or literal, on one line or on several, with these escapes, quote runs, line
ends and folded lines. -/
theorem string_grammar (cfg : Config) (cp : Bytes) (levels : ℕ) {w q : Bytes}
    (hq : ∀ basic, q.head? ≠ some (Toml.quote basic)) (s : Bytes) :
    parseValue cfg cp levels (w ++ q) = .ok (.string s, q) ↔ Toml.IsString w s := by
  constructor
  · intro h
    obtain ⟨⟨basic, hr⟩, hread⟩ := parseValue_string h
    have hquote : (w ++ q).head? = some Ch.dquote ∨ (w ++ q).head? = some Ch.squote := by
      cases basic
      · exact .inr hr
      · exact .inl hr
    obtain ⟨t, s', ht, hv, hs⟩ := parseString_sound hquote hread
    obtain rfl := Node.string.inj hv
    obtain rfl := List.append_cancel_right ht
    exact hs
  · intro h
    exact string_complete h hq

/-- `"a"` at the end of the input. -/
theorem string_grammar_basic :
    parseValue (.ofOptions .zero 0) [] 0 ([Ch.dquote, 0x61, Ch.dquote] ++ []) =
        .ok (.string [0x61], []) ↔
      Toml.IsString [Ch.dquote, 0x61, Ch.dquote] [0x61] :=
  string_grammar (.ofOptions .zero 0) [] 0 (fun _ hc => by cases hc) [0x61]

end Values

end Teptris
