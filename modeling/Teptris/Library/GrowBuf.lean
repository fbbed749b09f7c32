import Mathlib.Algebra.Order.Group.Nat
import Mathlib.Data.List.Basic
import Mathlib.Tactic.Common
import Mathlib.Tactic.Ring

/-!
# Growing buffers with a sticky status

A byte buffer that doubles its capacity when it is full, over an allocator that may refuse any
request.  A refused growth frees the buffer and sets a status that turns every later write into
nothing.  A program that writes to such a buffer emits a text (`Emits`) if it writes that text as
long as no request is refused, and ends with the status set as soon as one is; the programs that
emit are closed under sequence (`Emits.comp`), and a sequence of puts is one.
-/

namespace GrowBuf

variable {α : Type}

/-! ## The buffer -/

/-- A pattern of allocation failures: whether the request of that number is granted. -/
abbrev Pattern := ℕ → Bool

/-- No request is refused. -/
def always : Pattern := fun _ => true

/-- What sets a kind of buffers apart. -/
structure Shape where
  /-- The room kept free behind the data. -/
  spare : ℕ
  /-- The first capacity. -/
  first : ℕ

/-- A buffer. -/
structure Buf (α : Type) where
  /-- What was written. -/
  data : List α := []
  /-- The capacity. -/
  cap : ℕ := 0
  /-- The pointer is null. -/
  null : Bool := true
  /-- The sticky status: a request was refused. -/
  failed : Bool := false
  /-- The number of requests so far. -/
  requests : ℕ := 0

/-- What the pointer shows; `none` is a null pointer. -/
def Buf.shown (b : Buf α) : Option (List α) := if b.null then none else some b.data

/-- A null pointer comes with no capacity and no data. -/
def Buf.Sane (b : Buf α) : Prop := b.null = true → b.cap = 0 ∧ b.data = []

/-- Doubling a capacity at most `n` times, until there is room for `need`. -/
def double (need : ℕ) : ℕ → ℕ → ℕ
  | 0, cap => cap
  | n + 1, cap => if cap < need then double need n (cap * 2) else cap

/-- Room for `extra` more. -/
def grow (s : Shape) (a : Pattern) (b : Buf α) (extra : ℕ) : Buf α :=
  if b.failed then b
  else
    let need := b.data.length + extra + s.spare
    if need ≤ b.cap then b
    else if a b.requests then
      { b with
        cap := double need need (if b.cap = 0 then s.first else b.cap)
        null := false
        requests := b.requests + 1 }
    else { b with null := true, failed := true, requests := b.requests + 1 }

/-- Writing a text. -/
def put (s : Shape) (a : Pattern) (b : Buf α) (t : List α) : Buf α :=
  let b := grow s a b t.length
  if b.failed then b else { b with data := b.data ++ t }

/-- A program that needs scratch memory when it asks for more than `room`; it sets the status and
gives up where it does not get it. -/
def scratch (size room : ℕ) (f : Pattern → Buf α → Buf α) (a : Pattern) (b : Buf α) : Buf α :=
  if size ≤ room then f a b
  else if a b.requests then f a { b with requests := b.requests + 1 }
  else { b with failed := true, requests := b.requests + 1 }

section Put

variable {s : Shape} {a : Pattern} {b : Buf α} {t : List α}

/-- Nothing is written under the status. -/
lemma put_failed (hb : b.failed = true) : put s a b t = b := by simp [put, grow, hb]

/-- A text that has room is written. -/
lemma put_room (hb : b.failed = false) (hroom : b.data.length + t.length + s.spare ≤ b.cap) :
    put s a b t = { b with data := b.data ++ t } := by simp [put, grow, hb, hroom]

/-- A text without room is written behind a growth. -/
lemma put_grown (hb : b.failed = false) (hroom : ¬ b.data.length + t.length + s.spare ≤ b.cap)
    (hreq : a b.requests = true) :
    put s a b t =
      { data := b.data ++ t
        cap := double (b.data.length + t.length + s.spare) (b.data.length + t.length + s.spare)
          (if b.cap = 0 then s.first else b.cap)
        null := false
        failed := false
        requests := b.requests + 1 } := by simp [put, grow, hb, hroom, hreq]

/-- A refused growth leaves the status and a null pointer. -/
lemma put_refused (hb : b.failed = false) (hroom : ¬ b.data.length + t.length + s.spare ≤ b.cap)
    (hreq : ¬ a b.requests = true) :
    put s a b t = { b with null := true, failed := true, requests := b.requests + 1 } := by
  simp [put, grow, hb, hroom, hreq]

end Put

/-! ## Doubling -/

/-- `m` is the least doubling of the capacity `c` that has room for `n`. -/
def LeastDoubling (c n m : ℕ) : Prop :=
  ∃ k, m = c * 2 ^ k ∧ n ≤ m ∧ (k = 0 ∨ c * 2 ^ (k - 1) < n)

lemma leastDoubling_self {c n : ℕ} (h : n ≤ c) : LeastDoubling c n c := ⟨0, by simp, h, .inl rfl⟩

lemma LeastDoubling.trans {c n m n' m' : ℕ} (h : LeastDoubling c n m) (h' : LeastDoubling m n' m')
    (hle : n ≤ n') : LeastDoubling c n' m' := by
  obtain ⟨k, rfl, -, hk⟩ := h
  obtain ⟨k', rfl, hn', hk'⟩ := h'
  refine ⟨k + k', by ring, hn', ?_⟩
  rcases hk' with rfl | hk'
  · rcases hk with rfl | hk
    · exact .inl rfl
    · exact .inr (Nat.lt_of_lt_of_le hk hle)
  · rcases Nat.eq_zero_or_pos k' with rfl | hpos
    · rcases hk with rfl | hk
      · exact .inl rfl
      · exact .inr (Nat.lt_of_lt_of_le hk hle)
    · refine .inr ?_
      rwa [Nat.add_sub_assoc hpos, Nat.pow_add, ← Nat.mul_assoc]

/-- A least doubling is as large as any doubling with room. -/
lemma LeastDoubling.le {c n m : ℕ} (h : LeastDoubling c n m) {j : ℕ} (hj : n ≤ c * 2 ^ j) :
    m ≤ c * 2 ^ j := by
  obtain ⟨k, rfl, -, hk⟩ := h
  rcases hk with rfl | hk
  · exact Nat.mul_le_mul_left c (Nat.pow_le_pow_right Nat.two_pos (Nat.zero_le j))
  · refine Nat.mul_le_mul_left c (Nat.pow_le_pow_right Nat.two_pos ?_)
    by_contra hlt
    have hle : 2 ^ j ≤ 2 ^ (k - 1) := Nat.pow_le_pow_right Nat.two_pos (by omega)
    have := Nat.mul_le_mul_left c hle
    omega

/-- A least doubling is full exactly where the need is a doubling. -/
lemma LeastDoubling.eq_iff {c n m : ℕ} (h : LeastDoubling c n m) :
    m = n ↔ ∃ j, n = c * 2 ^ j := by
  constructor
  · rintro rfl
    obtain ⟨k, hk, -⟩ := h
    exact ⟨k, hk⟩
  · rintro ⟨j, rfl⟩
    obtain ⟨-, -, hle, -⟩ := id h
    exact Nat.le_antisymm (h.le (Nat.le_refl _)) hle

/-- Enough doublings find room, and no more than needed are made. -/
lemma leastDoubling_double {need n cap : ℕ} (h : need ≤ cap * 2 ^ n) :
    LeastDoubling cap need (double need n cap) := by
  induction n generalizing cap with
  | zero => exact leastDoubling_self (by simpa using h)
  | succ n ih =>
    rw [double]
    split_ifs with hlt
    · have hroom : need ≤ cap * 2 * 2 ^ n := by
        rw [Nat.mul_assoc, ← Nat.pow_succ']
        exact h
      obtain ⟨k, hk, hle, hmin⟩ := ih hroom
      refine ⟨k + 1, by rw [hk]; ring, hle, .inr ?_⟩
      rcases hmin with rfl | hmin
      · simpa using hlt
      · rcases Nat.eq_zero_or_pos k with rfl | hpos
        · simpa using hlt
        · obtain ⟨k, rfl⟩ := Nat.exists_eq_add_of_lt hpos
          calc cap * 2 ^ (0 + k + 1 + 1 - 1) = cap * 2 * 2 ^ (0 + k + 1 - 1) := by
                simp only [Nat.add_sub_cancel]
                ring
            _ < need := hmin
    · exact leastDoubling_self (by omega)

lemma leastDoubling_need {need cap : ℕ} (h : 0 < cap) :
    LeastDoubling cap need (double need need cap) := by
  refine leastDoubling_double ?_
  calc need ≤ 2 ^ need := Nat.lt_two_pow_self.le
    _ ≤ cap * 2 ^ need := Nat.le_mul_of_pos_left _ h

/-! ## Programs that emit -/

/-- The program writes the text `t`, or ends with the status set. -/
structure Emits (s : Shape) (f : Pattern → Buf α → Buf α) (t : List α) : Prop where
  /-- With every request granted it writes the text. -/
  ideal : ∀ b : Buf α, b.failed = false →
    (f always b).failed = false ∧ (f always b).data = b.data ++ t ∧
      b.requests ≤ (f always b).requests ∧ (b.null = false → (f always b).null = false) ∧
      (b.Sane → (f always b).Sane)
  /-- The capacity is the least doubling that has room. -/
  room : ∀ b : Buf α, b.failed = false → 0 < b.cap → b.data.length + s.spare ≤ b.cap →
    LeastDoubling b.cap ((b.data ++ t).length + s.spare) (f always b).cap
  /-- Nothing changes where the requests it makes are granted. -/
  same : ∀ (a : Pattern) (b : Buf α), b.failed = false →
    (∀ i, b.requests ≤ i → i < (f always b).requests → a i = true) → f a b = f always b
  /-- A refused request sets the status. -/
  lost : ∀ (a : Pattern) (b : Buf α), b.failed = false →
    (∃ i, b.requests ≤ i ∧ i < (f always b).requests ∧ a i = false) → (f a b).failed = true
  /-- The status is sticky, and nothing is written under it. -/
  stuck : ∀ (a : Pattern) (b : Buf α), b.failed = true →
    (f a b).failed = true ∧ (f a b).data = b.data ∧ (f a b).null = b.null

section Rules

variable {s : Shape} {f g : Pattern → Buf α → Buf α} {t u : List α}

/-- The text may be written otherwise. -/
lemma Emits.of_eq (hf : Emits s f t) (h : t = u) : Emits s f u := h ▸ hf

/-- Doing nothing emits nothing. -/
lemma Emits.skip : Emits s (fun _ (b : Buf α) => b) [] where
  ideal b hb := ⟨hb, (List.append_nil _).symm, Nat.le_refl _, id, id⟩
  room b _ _ hroom := leastDoubling_self (by simpa using hroom)
  same _ _ _ _ := rfl
  lost a b _ := fun ⟨i, hle, hlt, _⟩ => absurd hlt (Nat.not_lt.mpr hle)
  stuck a b hb := ⟨hb, rfl, rfl⟩

/-- One program after the other. -/
lemma Emits.comp (hf : Emits s f t) (hg : Emits s g u) :
    Emits s (fun a b => g a (f a b)) (t ++ u) where
  ideal b hb := by
    obtain ⟨hok, hdata, hle, hnull, hsane⟩ := hf.ideal b hb
    obtain ⟨hok', hdata', hle', hnull', hsane'⟩ := hg.ideal _ hok
    exact ⟨hok', by rw [hdata', hdata, List.append_assoc], Nat.le_trans hle hle',
      fun h => hnull' (hnull h), fun h => hsane' (hsane h)⟩
  room b hb hcap hroom := by
    obtain ⟨hok, hdata, -⟩ := hf.ideal b hb
    have hfirst := hf.room b hb hcap hroom
    obtain ⟨k, hk, hlen, -⟩ := id hfirst
    have hpos : 0 < (f always b).cap := by
      rw [hk]
      exact Nat.mul_pos hcap (Nat.pow_pos Nat.two_pos)
    have hsecond := hg.room _ hok hpos (by rw [hdata]; exact hlen)
    rw [hdata, List.append_assoc] at hsecond
    refine hfirst.trans hsecond ?_
    simp only [List.length_append]
    omega
  same a b hb hall := by
    obtain ⟨hok, -, hle, -⟩ := hf.ideal b hb
    obtain ⟨-, -, hle', -⟩ := hg.ideal _ hok
    have hfirst : f a b = f always b :=
      hf.same a b hb fun i hi hlt => hall i hi (Nat.lt_of_lt_of_le hlt hle')
    rw [hfirst]
    exact hg.same a _ hok fun i hi hlt => hall i (Nat.le_trans hle hi) hlt
  lost a b hb := by
    rintro ⟨i, hi, hlt, hrefused⟩
    obtain ⟨hok, -, hle, -⟩ := hf.ideal b hb
    by_cases hearly : ∃ j, b.requests ≤ j ∧ j < (f always b).requests ∧ a j = false
    · exact (hg.stuck a _ (hf.lost a b hb hearly)).1
    · have hfirst : f a b = f always b := hf.same a b hb fun j hj hlt' => by
        by_contra hj'
        exact hearly ⟨j, hj, hlt', Bool.eq_false_iff.mpr hj'⟩
      have hlate : (f always b).requests ≤ i :=
        Nat.not_lt.mp fun hlt' => hearly ⟨i, hi, hlt', hrefused⟩
      rw [hfirst]
      exact hg.lost a _ hok ⟨i, hlate, hlt, hrefused⟩
  stuck a b hb := by
    obtain ⟨hfailed, hdata, hnull⟩ := hf.stuck a b hb
    obtain ⟨hfailed', hdata', hnull'⟩ := hg.stuck a _ hfailed
    exact ⟨hfailed', hdata'.trans hdata, hnull'.trans hnull⟩

/-- A put emits its text. -/
lemma Emits.put (t : List α) : Emits s (fun a b => put s a b t) t where
  ideal b hb := by
    by_cases hroom : b.data.length + t.length + s.spare ≤ b.cap
    · rw [put_room hb hroom]
      refine ⟨hb, rfl, Nat.le_refl _, id, fun hsane hnull => ?_⟩
      obtain ⟨hcap, hdata⟩ := hsane hnull
      have hempty : t = [] := List.length_eq_zero_iff.mp (by omega)
      exact ⟨hcap, by rw [hdata, hempty, List.append_nil]⟩
    · rw [put_grown hb hroom rfl]
      exact ⟨rfl, rfl, Nat.le_succ _, fun _ => rfl, fun _ hnull => absurd hnull Bool.false_ne_true⟩
  room b hb hcap hlen := by
    rw [List.length_append]
    by_cases hroom : b.data.length + t.length + s.spare ≤ b.cap
    · rw [put_room hb hroom]
      exact leastDoubling_self hroom
    · rw [put_grown hb hroom rfl, if_neg (Nat.ne_of_gt hcap)]
      exact leastDoubling_need hcap
  same a b hb hall := by
    by_cases hroom : b.data.length + t.length + s.spare ≤ b.cap
    · rw [put_room hb hroom, put_room hb hroom]
    · have hideal : GrowBuf.put s always b t = _ := put_grown hb hroom rfl
      rw [hideal] at hall ⊢
      rw [put_grown hb hroom (hall _ (Nat.le_refl _) (Nat.lt_succ_self _))]
  lost a b hb := by
    rintro ⟨i, hi, hlt, hrefused⟩
    by_cases hroom : b.data.length + t.length + s.spare ≤ b.cap
    · rw [put_room hb hroom] at hlt
      exact absurd hlt (Nat.not_lt.mpr hi)
    · rw [put_grown hb hroom rfl] at hlt
      obtain rfl : b.requests = i := Nat.le_antisymm hi (Nat.lt_succ_iff.mp hlt)
      rw [put_refused hb hroom (Bool.eq_false_iff.mp hrefused)]
  stuck a b hb := by
    rw [put_failed hb]
    exact ⟨hb, rfl, rfl⟩

/-- A program that gets scratch memory for a text emits it. -/
lemma Emits.scratch (hf : Emits s f t) (size room : ℕ) : Emits s (scratch size room f) t := by
  by_cases hroom : size ≤ room
  · have heq : GrowBuf.scratch size room f = f := by
      funext a b
      rw [GrowBuf.scratch, if_pos hroom]
    rwa [heq]
  have hideal : ∀ b, GrowBuf.scratch size room f always b =
      f always { b with requests := b.requests + 1 } := fun b => by
    rw [GrowBuf.scratch, if_neg hroom, if_pos (show always b.requests = true from rfl)]
  have hgranted : ∀ (a : Pattern) (b : Buf α), a b.requests = true →
      GrowBuf.scratch size room f a b = f a { b with requests := b.requests + 1 } :=
    fun a b hreq => by rw [GrowBuf.scratch, if_neg hroom, if_pos hreq]
  have hrefused : ∀ (a : Pattern) (b : Buf α), ¬ a b.requests = true →
      GrowBuf.scratch size room f a b =
        { b with failed := true, requests := b.requests + 1 } :=
    fun a b hreq => by rw [GrowBuf.scratch, if_neg hroom, if_neg hreq]
  refine ⟨fun b hb => ?_, fun b hb hcap hlen => ?_, fun a b hb hall => ?_, fun a b hb => ?_,
    fun a b hb => ?_⟩
  · obtain ⟨hok, hdata, hle, hnull, hsane⟩ := hf.ideal { b with requests := b.requests + 1 } hb
    rw [hideal]
    exact ⟨hok, hdata, Nat.le_of_succ_le hle, hnull, hsane⟩
  · rw [hideal]
    exact hf.room { b with requests := b.requests + 1 } hb hcap hlen
  · have hle := (hf.ideal { b with requests := b.requests + 1 } hb).2.2.1
    rw [hideal] at hall ⊢
    rw [hgranted a b (hall _ (Nat.le_refl _) hle)]
    exact hf.same a _ hb fun i hi hlt => hall i (Nat.le_of_succ_le hi) hlt
  · rintro ⟨i, hi, hlt, hno⟩
    rw [hideal] at hlt
    by_cases hreq : a b.requests = true
    · rw [hgranted a b hreq]
      refine hf.lost a _ hb ⟨i, ?_, hlt, hno⟩
      rcases Nat.eq_or_lt_of_le hi with rfl | hi
      · rw [hreq] at hno
        simp at hno
      · exact hi
    · rw [hrefused a b hreq]
  · by_cases hreq : a b.requests = true
    · rw [hgranted a b hreq]
      exact hf.stuck a _ hb
    · rw [hrefused a b hreq]
      exact ⟨rfl, rfl, rfl⟩

/-- The program in scratch memory may know its pattern already. -/
lemma Emits.scratch_given (hf : Emits s f t) (size room : ℕ) :
    Emits s (fun a b => GrowBuf.scratch size room (fun _ b => f a b) a b) t := by
  have hsame : (fun a b => GrowBuf.scratch size room (fun _ b => f a b) a b) =
      GrowBuf.scratch size room f := by
    funext a b
    rfl
  rw [hsame]
  exact hf.scratch size room

/-- One program for each element. -/
lemma Emits.foldl {β : Type} {f : β → Pattern → Buf α → Buf α} {text : β → List α}
    (h : ∀ x, Emits s (f x) (text x)) (xs : List β) :
    Emits s (fun a b => xs.foldl (fun b x => f x a b) b) (xs.flatMap text) := by
  induction xs with
  | nil => exact Emits.skip
  | cons x xs ih => exact (h x).comp ih

end Rules

/-! ## What a failed buffer shows -/

/-- The program fails only by a refused growth, which leaves a null pointer. -/
def NullOnFailure (f : Pattern → Buf α → Buf α) : Prop :=
  ∀ (a : Pattern) (b : Buf α), b.failed = false → (f a b).failed = true → (f a b).null = true

section Null

variable {s : Shape} {f g : Pattern → Buf α → Buf α} {t u : List α}

lemma nullOnFailure_put (t : List α) : NullOnFailure fun a b => put s a b t := by
  intro a b hb hfailed
  dsimp only at hfailed ⊢
  by_cases hroom : b.data.length + t.length + s.spare ≤ b.cap
  · rw [put_room hb hroom] at hfailed
    exact absurd hfailed (Bool.eq_false_iff.mp hb)
  · by_cases hreq : a b.requests = true
    · rw [put_grown hb hroom hreq] at hfailed
      exact absurd hfailed Bool.false_ne_true
    · rw [put_refused hb hroom hreq]

lemma NullOnFailure.comp (hf : NullOnFailure f) (hg : NullOnFailure g) (hemits : Emits s g u) :
    NullOnFailure fun a b => g a (f a b) := by
  intro a b hb hfailed
  by_cases hfirst : (f a b).failed = true
  · exact (hemits.stuck a _ hfirst).2.2.trans (hf a b hb hfirst)
  · exact hg a _ (Bool.eq_false_iff.mpr hfirst) hfailed

end Null

end GrowBuf
