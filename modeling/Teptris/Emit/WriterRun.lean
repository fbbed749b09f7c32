import Teptris.Emit.WriterBuffered

/-!
# Feeds as runs of decoded ops

What a feed does with a chunk does not depend on where the ops in it begin: the chunk is a list of
ops, and feeding it takes one step for each of them up to the first failure.  So it is for the
writer and for the writer over a buffer that may fail to grow, and where no request is refused the
two take the same steps.
-/

namespace Teptris

open GrowBuf Loop

/-! ## The ops of a chunk -/

/-- The ops of a chunk, read with so much budget; `none` is a payload that is not whole. -/
def opsOf : ℕ → Bytes → List (Option WOp)
  | 0, _ => []
  | _ + 1, [] => []
  | n + 1, code :: r =>
    if code = 0x00 then []
    else
      match decodeOp code r with
      | none => [none]
      | some (op, r) => some op :: opsOf n r

/-- The ops of a chunk, up to `W_END` or a payload that is not whole. -/
def chunkOps (ops : Bytes) : List (Option WOp) := opsOf ops.length ops

section Machine

variable {S : Type} (st : S → Option Status) (step : S → Option WOp → S)

/-- One turn of a machine that is fed a chunk. -/
def machineTurn (s : S × Bytes) : Except S (Turn (S × Bytes) S) :=
  if st s.1 ≠ none then .ok (.stop s.1)
  else
    match s.2 with
    | [] => .ok (.stop s.1)
    | code :: r =>
      if code = 0x00 then .ok (.stop s.1)
      else
        match decodeOp code r with
        | none => .error (step s.1 none)
        | some (op, r) => .ok (.next (step s.1 (some op), r))

/-- One step for each op, up to the first failure. -/
def machineRun : S → List (Option WOp) → S
  | s, [] => s
  | s, x :: xs => if st s ≠ none then s else machineRun (step s x) xs

/-- The state that a loop leaves, whether it stopped or failed. -/
def leftIn : Except S S → S
  | .ok s => s
  | .error s => s

variable {st step}

lemma machineTurn_shrinks : Shrinks (machineTurn st step) fun s => s.2.length := by
  rintro ⟨s, r⟩ ⟨s', r'⟩ h
  rw [machineTurn] at h
  split at h
  · cases h
  split at h
  · cases h
  next code r₁ hr =>
  split at h
  · cases h
  split at h
  · cases h
  next op r₂ hop =>
  obtain ⟨-, rfl⟩ := Prod.mk.inj (Turn.next.inj (Except.ok.inj h))
  obtain rfl : r = code :: r₁ := hr
  exact Nat.lt_succ_of_le (consumes_op code r₁ op _ hop)

/-- A failed machine stays where it is. -/
lemma machineRun_failed {s : S} (h : st s ≠ none) (xs : List (Option WOp)) :
    machineRun st step s xs = s := by
  cases xs with
  | nil => rfl
  | cons x xs => rw [machineRun, if_pos h]

/-- A machine that succeeds did not start out failed. -/
lemma st_of_run {s : S} {xs : List (Option WOp)} (h : st (machineRun st step s xs) = none) :
    st s = none := by
  by_contra hne
  rw [machineRun_failed hne] at h
  exact hne h

lemma machineRun_cons {s : S} (h : st s = none) (x : Option WOp) (xs : List (Option WOp)) :
    machineRun st step s (x :: xs) = machineRun st step (step s x) xs := by
  rw [machineRun, if_neg (not_not.mpr h)]

lemma machineRun_append (s : S) (xs ys : List (Option WOp)) :
    machineRun st step s (xs ++ ys) = machineRun st step (machineRun st step s xs) ys := by
  induction xs generalizing s with
  | nil => rfl
  | cons x xs ih =>
    rw [List.cons_append, machineRun, machineRun]
    split_ifs with hst
    · rw [machineRun_failed hst]
    · exact ih (step s x)

/-- What every step keeps, a run keeps. -/
lemma machineRun_keeps {P : S → Prop} (hstep : ∀ s x, P s → P (step s x)) {s : S} (hs : P s)
    (xs : List (Option WOp)) : P (machineRun st step s xs) := by
  induction xs generalizing s with
  | nil => exact hs
  | cons x xs ih =>
    rw [machineRun]
    split_ifs
    · exact hs
    · exact ih (hstep s x hs)

/-- A loop over a chunk is a run over its ops. -/
lemma leftIn_machineLoop (stuck s : S) (ops : Bytes) :
    leftIn (loop (machineTurn st step) stuck (fun s => s.2.length) (s, ops)) =
      machineRun st step s (chunkOps ops) := by
  have hbudget : ∀ (n : ℕ) (ops : Bytes) (s : S), ops.length ≤ n →
      leftIn (loop (machineTurn st step) stuck (fun s => s.2.length) (s, ops)) =
        machineRun st step s (opsOf n ops) := by
    intro n
    induction n with
    | zero =>
      intro ops s hlen
      obtain rfl := List.eq_nil_of_length_eq_zero (Nat.le_zero.mp hlen)
      rw [loop_stop (b := s) (by simp [machineTurn])]
      rfl
    | succ n ih =>
      intro ops s hlen
      cases ops with
      | nil =>
        rw [loop_stop (b := s) (by simp [machineTurn])]
        rfl
      | cons code r =>
        by_cases hst : st s ≠ none
        · rw [loop_stop (b := s) (by simp [machineTurn, hst]), machineRun_failed hst]
          rfl
        rw [opsOf]
        split_ifs with hend
        · rw [loop_stop (b := s) (by simp [machineTurn, hend])]
          rfl
        cases hop : decodeOp code r with
        | none =>
          rw [loop_error (e := step s none) (by simp [machineTurn, hst, hend, hop]), machineRun,
            if_neg hst]
          rfl
        | some p =>
          obtain ⟨op, r'⟩ := p
          have hshorter := consumes_op code r op r' hop
          rw [List.length_cons] at hlen
          have hturn : machineTurn st step (s, code :: r) =
              .ok (.next (step s (some op), r')) := by
            simp [machineTurn, hst, hend, hop]
          rw [loop_next machineTurn_shrinks hturn, ih r' _ (by omega)]
          exact (if_neg hst).symm
  exact hbudget ops.length ops s (Nat.le_refl _)

end Machine

/-! ## The writer -/

namespace Writer

variable {fc : FloatConv} {w : Writer}

/-- What the writer does with an op of a chunk. -/
def take (fc : FloatConv) (w : Writer) : Option WOp → Writer
  | none => w.fail .errArg
  | some op => w.apply fc op

lemma feedTurn_eq : feedTurn fc = machineTurn Writer.st (take fc) := by
  funext ⟨w, ops⟩
  rw [feedTurn, machineTurn]
  rfl

lemma feedAll_eq (ops : Bytes) :
    w.feedAll fc ops = machineRun Writer.st (take fc) w (chunkOps ops) := by
  rw [← leftIn_machineLoop w, ← feedTurn_eq, feedAll]
  cases loop (feedTurn fc) w (fun s => s.2.length) (w, ops) <;> rfl

@[simp] lemma refused_finished (op : WOp) : (w.refused op).finished = w.finished := by
  cases op <;> rfl

@[simp] lemma refused_st (op : WOp) : (w.refused op).st = some .errAlloc := by
  cases op <;> rfl

lemma take_finished (x : Option WOp) : (w.take fc x).finished = w.finished := by
  cases x with
  | none => rfl
  | some op => exact apply_finished op

/-- Chunks are fed as one run. -/
lemma feeds_eq (hfin : w.finished = false) (hst : w.st = none) (chunks : List Bytes) :
    w.feeds fc chunks =
      ((machineRun Writer.st (take fc) w (chunks.flatMap chunkOps)).st,
        machineRun Writer.st (take fc) w (chunks.flatMap chunkOps)) := by
  induction chunks generalizing w with
  | nil => exact Prod.ext hst.symm rfl
  | cons chunk chunks ih =>
    rw [feeds, feed, if_neg (Bool.eq_false_iff.mp hfin), feedAll_eq, List.flatMap_cons,
      machineRun_append]
    cases hmid : (machineRun Writer.st (take fc) w (chunkOps chunk)).st with
    | none =>
      have hfin' : (machineRun Writer.st (take fc) w (chunkOps chunk)).finished = false :=
        machineRun_keeps (P := fun w : Writer => w.finished = false)
          (fun w x h => (take_finished x).trans h) hfin _
      exact ih hfin' hmid
    | some st' =>
      have hstop : Writer.st (machineRun Writer.st (take fc) w (chunkOps chunk)) ≠ none := by
        rw [hmid]
        exact Option.some_ne_none st'
      rw [machineRun_failed hstop, hmid]

end Writer

/-! ## The fallible writer -/

namespace WriterTo

variable {fc : FloatConv} {a c : Pattern} {w : WriterTo}

/-- The status the feeds report. -/
def st (w : WriterTo) : Option Status := w.ctl.st

/-- What the fallible writer does with an op of a chunk. -/
def take (fc : FloatConv) (a c : Pattern) (w : WriterTo) : Option WOp → WriterTo
  | none => { w with ctl := w.ctl.fail .errArg }
  | some op => w.apply fc a c op

/-- The run over the ops of a chunk. -/
abbrev run (fc : FloatConv) (a c : Pattern) (w : WriterTo) (xs : List (Option WOp)) : WriterTo :=
  machineRun st (take fc a c) w xs

lemma feedTurn_eq : feedTurn fc a c = machineTurn st (take fc a c) := by
  funext ⟨w, ops⟩
  rw [feedTurn, machineTurn]
  rfl

lemma feedAll_eq (ops : Bytes) : w.feedAll fc a c ops = w.run fc a c (chunkOps ops) := by
  rw [run, ← leftIn_machineLoop w, ← feedTurn_eq, feedAll]
  cases loop (feedTurn fc a c) w (fun s => s.2.length) (w, ops) <;> rfl

lemma take_finished (x : Option WOp) : (w.take fc a c x).ctl.finished = w.ctl.finished := by
  cases x with
  | none => rfl
  | some op =>
    rw [take, apply]
    split_ifs
    · exact Writer.apply_finished op
    · exact (Writer.refused_finished op).trans (Writer.apply_finished op)
    · exact Writer.apply_finished op

/-- Chunks are fed as one run. -/
lemma feeds_eq (hfin : w.ctl.finished = false) (hst : w.ctl.st = none) (chunks : List Bytes) :
    feeds fc a c w chunks =
      ((w.run fc a c (chunks.flatMap chunkOps)).ctl.st,
        w.run fc a c (chunks.flatMap chunkOps)) := by
  induction chunks generalizing w with
  | nil => exact Prod.ext hst.symm rfl
  | cons chunk chunks ih =>
    have hjoin : w.run fc a c ((chunk :: chunks).flatMap chunkOps) =
        (w.run fc a c (chunkOps chunk)).run fc a c (chunks.flatMap chunkOps) :=
      machineRun_append w (chunkOps chunk) _
    rw [feeds, feed, if_neg (Bool.eq_false_iff.mp hfin), feedAll_eq, hjoin]
    cases hmid : (w.run fc a c (chunkOps chunk)).ctl.st with
    | none =>
      have hfin' : (w.run fc a c (chunkOps chunk)).ctl.finished = false :=
        machineRun_keeps (P := fun w : WriterTo => w.ctl.finished = false)
          (fun w x h => (take_finished x).trans h) hfin _
      exact ih hfin' hmid
    | some st' =>
      have hstop : st (w.run fc a c (chunkOps chunk)) ≠ none := by
        rw [st, hmid]
        exact Option.some_ne_none st'
      have hrest : (w.run fc a c (chunkOps chunk)).run fc a c (chunks.flatMap chunkOps) =
          w.run fc a c (chunkOps chunk) := machineRun_failed hstop _
      rw [hrest, hmid]

/-- Where no request for the writer itself is refused, it does what the writer does. -/
lemma take_always (x : Option WOp) : (w.take fc a always x).ctl = w.ctl.take fc x := by
  cases x with
  | none => rfl
  | some op =>
    rw [take, apply]
    split_ifs with hreq hno
    · rfl
    · exact absurd rfl hno
    · rfl

/-- The runs of the two writers agree. -/
lemma run_always (xs : List (Option WOp)) :
    (w.run fc a always xs).ctl = machineRun Writer.st (Writer.take fc) w.ctl xs := by
  induction xs generalizing w with
  | nil => rfl
  | cons x xs ih =>
    rw [run, machineRun, machineRun, st]
    split_ifs
    · rfl
    · rw [← take_always (a := a)]
      exact ih

end WriterTo

/-! ## The depth of the stack -/

namespace Writer

variable {fc : FloatConv} {w : Writer}

/-- By how many frames an op changes the stack. -/
def stackChange : WOp → ℤ
  | .beginTable | .beginArray | .beginAot | .beginInlineTable => 1
  | .close => -1
  | _ => 0

@[simp] lemma put_stack (t : Bytes) : (w.put t).stack = w.stack := rfl
@[simp] lemma fail_stack (s : Status) : (w.fail s).stack = w.stack := rfl
@[simp] lemma fail_st (s : Status) : (w.fail s).st = some s := rfl
@[simp] lemma clearKey_stack : w.clearKey.stack = w.stack := rfl
@[simp] lemma push_stack (f : WFrame) : (w.push f).stack = f :: w.stack := rfl

@[simp] lemma length_modifyTop (f : WFrame → WFrame) :
    (w.modifyTop f).stack.length = w.stack.length := by
  obtain ⟨out, key, stack, fin, st⟩ := w
  cases stack <;> rfl

@[simp] lemma length_sepVal : w.sepVal.stack.length = w.stack.length := by
  rw [sepVal]
  split_ifs <;> simp

@[simp] lemma length_keyedPrefix : w.keyedPrefix.stack.length = w.stack.length := by
  rw [keyedPrefix]
  by_cases harray : w.topKind = some .array
  · rw [if_pos harray]
    exact length_sepVal
  rw [if_neg harray]
  dsimp only
  have hsep : (if w.topKind = some .itab then w.sepVal else w).stack.length = w.stack.length := by
    split_ifs <;> simp
  split
  · exact hsep
  · split_ifs at hsep ⊢ <;> simp [hsep]

@[simp] lemma length_endLine : w.endLine.stack.length = w.stack.length := by
  rw [endLine]
  split_ifs <;> simp

@[simp] lemma length_value (t : Bytes) : (w.value t).stack.length = w.stack.length := by
  rw [value]
  split_ifs <;> simp

lemma length_openKeyed {bracket : UInt8} {frame : WFrame}
    (h : (w.openKeyed bracket frame).st = none) :
    (w.openKeyed bracket frame).stack.length = w.stack.length + 1 := by
  rw [openKeyed] at h ⊢
  split at h
  · simp at h
  · split_ifs at h ⊢ <;> simp_all

lemma length_beginTable (h : w.beginTable.st = none) :
    w.beginTable.stack.length = w.stack.length + 1 := by
  rw [beginTable] at h ⊢
  split_ifs at h ⊢
  · simp at h
  · simp
  · split at h
    · simp at h
    · simp

lemma length_beginAot (h : w.beginAot.st = none) :
    w.beginAot.stack.length = w.stack.length + 1 := by
  rw [beginAot] at h ⊢
  split at h
  · simp at h
  · split_ifs at h ⊢
    · simp at h
    · simp

lemma length_beginArray (h : w.beginArray.st = none) :
    w.beginArray.stack.length = w.stack.length + 1 := by
  rw [beginArray] at h ⊢
  split_ifs at h ⊢
  · simp at h
  · simp
  · exact length_openKeyed h

lemma length_beginInlineTable (h : w.beginInlineTable.st = none) :
    w.beginInlineTable.stack.length = w.stack.length + 1 := by
  rw [beginInlineTable] at h ⊢
  split_ifs at h ⊢
  · simp at h
  · simp
  · exact length_openKeyed h

lemma length_close (h : w.close.st = none) : w.close.stack.length + 1 = w.stack.length := by
  rw [close] at h ⊢
  split at h
  · next hstack =>
    rw [hstack]
    dsimp only
    split_ifs <;> simp
  · simp at h

/-- An op that succeeds changes the depth of the stack by an amount of its own. -/
lemma length_apply {op : WOp} (h : (w.apply fc op).st = none) :
    ((w.apply fc op).stack.length : ℤ) = w.stack.length + stackChange op := by
  cases op with
  | key => simp [apply, stackChange]
  | string | int | float | bool | datetime | emptyTable | emptyArray =>
    simp [apply, stackChange]
  | beginTable =>
    have := length_beginTable h
    simp only [apply, stackChange]
    omega
  | beginArray =>
    have := length_beginArray h
    simp only [apply, stackChange]
    omega
  | beginAot =>
    have := length_beginAot h
    simp only [apply, stackChange]
    omega
  | beginInlineTable =>
    have := length_beginInlineTable h
    simp only [apply, stackChange]
    omega
  | close =>
    have := length_close h
    simp only [apply, stackChange]
    omega

/-- Runs that both succeed keep the distance of their stacks. -/
lemma length_runs {w' : Writer} (xs : List (Option WOp))
    (h : (machineRun Writer.st (take fc) w xs).st = none)
    (h' : (machineRun Writer.st (take fc) w' xs).st = none) :
    ((machineRun Writer.st (take fc) w xs).stack.length : ℤ) - w.stack.length =
      (machineRun Writer.st (take fc) w' xs).stack.length - w'.stack.length := by
  induction xs generalizing w w' with
  | nil => simp [machineRun]
  | cons x xs ih =>
    have hst := st_of_run h
    have hst' := st_of_run h'
    rw [machineRun_cons hst] at h ⊢
    rw [machineRun_cons hst'] at h' ⊢
    have hrest := ih h h'
    have hstep := st_of_run h
    have hstep' := st_of_run h'
    cases x with
    | none => simp [take] at hstep
    | some op =>
      have hlen := length_apply hstep
      have hlen' := length_apply hstep'
      simp only [take] at hrest ⊢
      omega

end Writer

end Teptris
