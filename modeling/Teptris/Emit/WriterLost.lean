import Teptris.Emit.WriterRun

/-!
# What the writer loses to a refused request

A run of the fallible writer beside the run of the same ops with every request granted.  As long as
no request for the writer itself is refused the two take the same steps, and their buffers are the
same or the status of the output buffer is set and its text is short (`OutBeside`); a refused
request for the writer itself fails every feed from then on.
-/

namespace Teptris

open GrowBuf Loop

/-! ## One write -/

/-- The text that `teptris_writer_finish` takes from a buffer. -/
def takenText (b : Ebuf) : Bytes := if b.null then [] else b.data

lemma takenText_length (b : Ebuf) : (takenText b).length ≤ b.data.length := by
  rw [takenText]
  split_ifs <;> simp

/-- A sane buffer is taken whole. -/
lemma takenText_sane {b : Ebuf} (h : b.Sane) : takenText b = b.data := by
  rw [takenText]
  split_ifs with hnull
  · exact (h hnull).2.symm
  · rfl

lemma takenText_null {b : Ebuf} (h : b.null = true) : takenText b = [] := if_pos h

namespace OutWrite

lemma emits_run (x : OutWrite) : Emits ebShape (fun a b => x.run a b) x.text := by
  cases x with
  | put t => exact .put t
  | key k => exact emits_key k
  | string s => exact emits_stringValue s

end OutWrite

lemma nullOnFailure_putSpans (plain : UInt8 → Bool) (esc : UInt8 → Bytes) (run cs : Bytes) :
    NullOnFailure fun a b => putSpans plain esc a run cs b := by
  induction cs generalizing run with
  | nil =>
    intro a b hb hfailed
    simp only [putSpans] at hfailed ⊢
    split_ifs at hfailed ⊢ with hrun
    · rw [hb] at hfailed
      exact absurd hfailed Bool.false_ne_true
    · exact nullOnFailure_put run a b hb hfailed
  | cons c cs ih =>
    simp only [putSpans]
    by_cases hplain : plain c = true
    · simp only [hplain, if_true]
      exact ih (run ++ [c])
    · simp only [hplain, if_false, Bool.false_eq_true]
      have htwo : NullOnFailure fun a b => ebPut a (ebPut a b run) (esc c) :=
        (nullOnFailure_put run).comp (nullOnFailure_put (esc c)) (.put (esc c))
      exact htwo.comp (ih []) (emits_putSpans plain esc [] cs)

lemma nullOnFailure_stringValue (s : Bytes) :
    NullOnFailure fun a b => emitStringValueTo a b s := by
  have hquote := fun c : UInt8 => nullOnFailure_put (s := ebShape) [c]
  simp only [emitStringValueTo]
  split_ifs
  · exact ((hquote Ch.squote).comp (nullOnFailure_put s) (.put s)).comp (hquote Ch.squote) (.put _)
  · exact ((hquote Ch.dquote).comp (nullOnFailure_putSpans isBasicPlain basicByte [] s)
      (emits_putSpans isBasicPlain basicByte [] s)).comp (hquote Ch.dquote) (.put _)

/-- A write that fails leaves less than it should have written. -/
lemma run_short {x : OutWrite} (hx : x.text ≠ []) {a : Pattern} {b : Ebuf}
    (hb : b.failed = false) (hfailed : (x.run a b).failed = true) :
    (takenText (x.run a b)).length < (b.data ++ x.text).length := by
  have hpos : 0 < x.text.length := List.length_pos_iff.mpr hx
  rw [List.length_append]
  cases x with
  | put t =>
    have hnull : (OutWrite.run a b (.put t)).null = true := nullOnFailure_put t a b hb hfailed
    rw [takenText_null hnull, List.length_nil]
    omega
  | string s =>
    have hnull : (OutWrite.run a b (.string s)).null = true :=
      nullOnFailure_stringValue s a b hb hfailed
    rw [takenText_null hnull, List.length_nil]
    omega
  | key k =>
    simp only [OutWrite.run, emitKeyTo, scratch] at hfailed ⊢
    split_ifs at hfailed ⊢ with hroom hreq
    · have hnull : (ebPut a b (emitKey k)).null = true := nullOnFailure_put _ a b hb hfailed
      rw [takenText_null hnull, List.length_nil]
      omega
    · have hnull : (ebPut a { b with requests := b.requests + 1 } (emitKey k)).null = true :=
        nullOnFailure_put _ a { b with requests := b.requests + 1 } hb hfailed
      rw [takenText_null hnull, List.length_nil]
      omega
    · -- the memory for a long key was refused: the buffer is as it was
      have hle : (takenText { b with failed := true, requests := b.requests + 1 }).length ≤
          b.data.length := takenText_length _
      omega

/-! ## The buffers beside each other -/

/-- A buffer beside the one of the run without failures, which holds `t`. -/
structure OutBeside (a : Pattern) (b ideal : Ebuf) (t : Bytes) : Prop where
  /-- The run without failures has none. -/
  ok : ideal.failed = false
  /-- It holds the text. -/
  data : ideal.data = t
  /-- Its null pointer means no text. -/
  sane : ideal.Sane
  /-- The buffers are the same if every request was granted; else the text is short. -/
  same : (b = ideal ∧ ∀ i < ideal.requests, a i = true) ∨
    (b.failed = true ∧ (takenText b).length < t.length ∧ ∃ i < ideal.requests, a i = false)

namespace OutBeside

variable {a : Pattern} {b ideal : Ebuf} {t : Bytes}

/-- One write keeps the buffers beside each other. -/
lemma write (h : OutBeside a b ideal t) {x : OutWrite} (hx : x.text ≠ []) :
    OutBeside a (x.run a b) (x.run always ideal) (t ++ x.text) := by
  obtain ⟨hok, hdata, hle, -, hsane⟩ := x.emits_run.ideal ideal h.ok
  refine ⟨hok, by rw [hdata, h.data], hsane h.sane, ?_⟩
  rcases h.same with ⟨rfl, hall⟩ | ⟨hfailed, hshort, i, hi, hrefused⟩
  · by_cases hreq : ∀ i < (x.run always b).requests, a i = true
    · exact .inl ⟨x.emits_run.same a b h.ok fun i _ hi => hreq i hi, hreq⟩
    · push Not at hreq
      obtain ⟨i, hi, hrefused⟩ := hreq
      have hno : a i = false := Bool.eq_false_iff.mpr hrefused
      have hlate : b.requests ≤ i := Nat.not_lt.mp fun hlt => hrefused (hall i hlt)
      have hlost := x.emits_run.lost a b h.ok ⟨i, hlate, hi, hno⟩
      refine .inr ⟨hlost, ?_, i, hi, hno⟩
      rw [← h.data]
      exact run_short hx h.ok hlost
  · obtain ⟨hstuck, hsame, hnull⟩ := x.emits_run.stuck a b hfailed
    refine .inr ⟨hstuck, ?_, i, Nat.lt_of_lt_of_le hi hle, hrefused⟩
    have htaken : takenText (x.run a b) = takenText b := by rw [takenText, hsame, hnull, takenText]
    rw [htaken, List.length_append]
    omega

/-- The writes of an op keep the buffers beside each other. -/
lemma writes (h : OutBeside a b ideal t) {ws : List OutWrite} (hws : AllText ws) :
    OutBeside a (ws.foldl (OutWrite.run a) b) (ws.foldl (OutWrite.run always) ideal)
      (t ++ writesText ws) := by
  induction ws generalizing b ideal t with
  | nil => simpa using h
  | cons x ws ih =>
    obtain ⟨hx, hrest⟩ := allText_cons.mp hws
    simpa using ih (h.write hx) hrest

/-- Buffers from the start. -/
lemma start : OutBeside a {} {} [] where
  ok := rfl
  data := rfl
  sane _ := ⟨rfl, rfl⟩
  same := .inl ⟨rfl, fun _ hi => absurd hi (Nat.not_lt_zero _)⟩

/-- The whole text is taken exactly where no request was refused. -/
lemma taken_iff (h : OutBeside a b ideal t) :
    takenText b = t ↔ ∀ i < ideal.requests, a i = true := by
  rcases h.same with ⟨rfl, hall⟩ | ⟨-, hshort, i, hi, hrefused⟩
  · exact iff_of_true (by rw [takenText_sane h.sane, h.data]) hall
  · refine iff_of_false (fun heq => ?_) fun hall => ?_
    · rw [heq] at hshort
      exact absurd hshort (Nat.lt_irrefl _)
    · rw [hall i hi] at hrefused
      simp at hrefused

end OutBeside

/-! ## The runs beside each other -/

/-- No request for the writer itself was refused from the first op on. -/
def OpsGranted (c : Pattern) (n : ℕ) : Prop := ∀ i, 2 ≤ i → i < n → c i = true

namespace WriterTo

variable {fc : FloatConv} {a c : Pattern}

/-- A writer beside the one of the run without failures. -/
structure Beside (a c : Pattern) (w ideal : WriterTo) : Prop where
  /-- The same writer. -/
  ctl : w.ctl = ideal.ctl
  /-- The same number of requests. -/
  allocs : w.allocs = ideal.allocs
  /-- None of them was refused. -/
  granted : OpsGranted c ideal.allocs
  /-- The output buffers. -/
  out : OutBeside a w.out ideal.out ideal.ctl.out

/-- A request for the writer itself was refused, and the writer has failed. -/
def Dead (c : Pattern) (w ideal : WriterTo) : Prop :=
  w.ctl.st ≠ none ∧ ¬ OpsGranted c ideal.allocs

/-- One op more. -/
lemma Beside.apply {w ideal : WriterTo} (h : Beside a c w ideal) (htwo : 2 ≤ ideal.allocs)
    (op : WOp) :
    Beside a c (w.apply fc a c op) (ideal.apply fc always always op) ∨
      Dead c (w.apply fc a c op) (ideal.apply fc always always op) := by
  obtain ⟨ctl, out, allocs⟩ := w
  obtain ⟨ctl', out', allocs'⟩ := ideal
  obtain ⟨rfl, rfl, hgranted, hout⟩ := h
  have htext : AllText (ctl.opWrites fc op) := ctl.allText_opWrites op
  have hwrites := hout.writes htext
  rw [← Writer.apply_out] at hwrites
  simp only [WriterTo.apply]
  by_cases halloc : ctl.allocates fc op = true
  · simp only [halloc, if_true, show always allocs = true from rfl]
    by_cases hreq : c allocs = true
    · refine .inl ⟨by simp [hreq], rfl, fun i hi hlt => ?_, hwrites⟩
      rcases Nat.lt_succ_iff_lt_or_eq.mp hlt with hlt | rfl
      · exact hgranted i hi hlt
      · exact hreq
    · refine .inr ⟨by simp [hreq], fun hall => hreq ?_⟩
      exact hall allocs htwo (Nat.lt_succ_self allocs)
  · simp only [halloc, if_false, Bool.false_eq_true]
    exact .inl ⟨rfl, rfl, hgranted, hwrites⟩

lemma allocs_take (w : WriterTo) (x : Option WOp) : w.allocs ≤ (w.take fc a c x).allocs := by
  cases x with
  | none => exact Nat.le_refl _
  | some op =>
    rw [WriterTo.take, WriterTo.apply]
    split_ifs
    · exact Nat.le_succ _
    · exact Nat.le_succ _
    · exact Nat.le_refl _

lemma allocs_run (w : WriterTo) (xs : List (Option WOp)) :
    w.allocs ≤ (w.run fc a c xs).allocs :=
  machineRun_keeps (P := fun w' : WriterTo => w.allocs ≤ w'.allocs)
    (fun w' x h => Nat.le_trans h (allocs_take w' x)) (Nat.le_refl _) xs

/-- What one op does to a writer beside the one of the run without failures. -/
lemma Beside.take (fc : FloatConv) {w ideal : WriterTo} (h : Beside a c w ideal)
    (htwo : 2 ≤ ideal.allocs) (x : Option WOp) :
    Beside a c (w.take fc a c x) (ideal.take fc always always x) ∨
      Dead c (w.take fc a c x) (ideal.take fc always always x) := by
  cases x with
  | none =>
    refine .inl ⟨?_, h.allocs, h.granted, h.out⟩
    simp only [WriterTo.take, h.ctl]
  | some op => exact h.apply htwo op

/-- A run beside the run without failures. -/
lemma Beside.run (fc : FloatConv) {w ideal : WriterTo} (h : Beside a c w ideal)
    (htwo : 2 ≤ ideal.allocs) (xs : List (Option WOp)) :
    Beside a c (w.run fc a c xs) (ideal.run fc always always xs) ∨
      Dead c (w.run fc a c xs) (ideal.run fc always always xs) := by
  induction xs generalizing w ideal with
  | nil => exact .inl h
  | cons x xs ih =>
    by_cases hst : st w = none
    · have hst' : st ideal = none := by rwa [st, ← h.ctl]
      rw [WriterTo.run, WriterTo.run, machineRun_cons hst, machineRun_cons hst']
      rcases h.take fc htwo x with hlive | ⟨hfailed, hrefused⟩
      · exact ih hlive (Nat.le_trans htwo (allocs_take ideal x))
      · -- the writer has failed, whatever the other one goes on to do
        have hstop : st (w.take fc a c x) ≠ none := hfailed
        rw [machineRun_failed hstop]
        refine .inr ⟨hfailed, fun hall => hrefused fun i hi hlt => hall i hi ?_⟩
        exact Nat.lt_of_lt_of_le hlt (allocs_run _ xs)
    · have hst' : st ideal ≠ none := by rwa [st, ← h.ctl]
      rw [WriterTo.run, WriterTo.run, machineRun_failed hst, machineRun_failed hst']
      exact .inl h

/-- Runs from the same start. -/
lemma beside_start (root : Bool) : Beside a c (start root) (start root) where
  ctl := rfl
  allocs := rfl
  granted i hi hlt := absurd hlt (Nat.not_lt.mpr hi)
  out := by cases root <;> exact OutBeside.start

end WriterTo

/-! ## Sessions -/

namespace WriterTo

variable (fc : FloatConv) (a c : Pattern) (chunks : List Bytes)

/-- The feeds of a new writer, with or without its root frame. -/
def fed (root : Bool) : Option Status × WriterTo := feeds fc a c (start root) chunks

/-- The session reaches the hand-over: the struct was granted, every feed and the checks of
`teptris_writer_finish` say `TEPTRIS_OK`, no request for a frame or a key was refused, and where
`teptris_writer_finish` finds a null pointer the memory for the empty text is granted. -/
structure Accepted : Prop where
  /-- The struct. -/
  struct : c 0 = true
  /-- The ops are accepted. -/
  ops : (fed fc always always chunks (c 1)).1 = none
  /-- One frame is left. -/
  closed : (fed fc always always chunks (c 1)).2.ctl.stack.length = 1
  /-- Frames and keys. -/
  granted : OpsGranted c (fed fc always always chunks (c 1)).2.allocs
  /-- The empty text. -/
  empty : (fed fc a c chunks (c 1)).2.out.null = true → c (fed fc a c chunks (c 1)).2.allocs = true

/-- Nothing is lost: the writer has its root frame, and no request of the output buffer is
refused. -/
def NothingLost : Prop :=
  c 1 = true ∧ ∀ i < (fed fc always always chunks true).2.out.requests, a i = true

variable {fc a c chunks}

/-- A started writer is not finished, and has not failed. -/
lemma start_ready (root : Bool) :
    (start root).ctl.finished = false ∧ (start root).ctl.st = none := by
  cases root <;> exact ⟨rfl, rfl⟩

lemma fed_eq (root : Bool) : fed fc a c chunks root =
    (((start root).run fc a c (chunks.flatMap chunkOps)).ctl.st,
      (start root).run fc a c (chunks.flatMap chunkOps)) :=
  feeds_eq (start_ready root).1 (start_ready root).2 chunks

/-- The session behind the feeds. -/
lemma session_eq (h : c 0 = true) : session fc a c chunks =
    match (fed fc a c chunks (c 1)).1 with
    | some st => .error st
    | none => (fed fc a c chunks (c 1)).2.finish c := by
  rw [session, new, if_pos h]
  dsimp only
  rw [fed]
  cases hfed : feeds fc a c (start (c 1)) chunks with
  | mk st w => cases st <;> rfl

/-- What `teptris_writer_finish` hands over. -/
lemma finish_ok {w : WriterTo} (hlen : w.ctl.stack.length = 1) (hst : w.ctl.st = none)
    (hempty : w.out.null = true → c w.allocs = true) :
    w.finish c = .ok (some (takenText w.out ++ [0]), (takenText w.out).length) := by
  rw [finish, if_neg (not_not.mpr hlen), hst, takenText]
  dsimp only
  split_ifs with hnull hreq
  · rfl
  · exact absurd (hempty hnull) hreq
  · rfl

/-- A session that is not accepted hands nothing over; an accepted one hands over the text. -/
lemma session_cases (fc : FloatConv) (a c : Pattern) (chunks : List Bytes) :
    (Accepted fc a c chunks ∧ OutBeside a (fed fc a c chunks (c 1)).2.out
        (fed fc always always chunks (c 1)).2.out (fed fc always always chunks (c 1)).2.ctl.out ∧
      session fc a c chunks = .ok (some (takenText (fed fc a c chunks (c 1)).2.out ++ [0]),
        (takenText (fed fc a c chunks (c 1)).2.out).length)) ∨
    (¬ Accepted fc a c chunks ∧ ∀ out, session fc a c chunks ≠ .ok out) := by
  by_cases hstruct : c 0 = true
  swap
  · refine .inr ⟨fun h => hstruct h.struct, fun out => ?_⟩
    rw [session, new, if_neg hstruct]
    simp
  rw [session_eq hstruct]
  have hready := start_ready (c 1)
  rcases (beside_start (a := a) (c := c) (c 1)).run fc (Nat.le_refl 2)
    (chunks.flatMap chunkOps) with hlive | ⟨hfailed, hrefused⟩
  swap
  · refine .inr ⟨fun h => hrefused ?_, fun out => ?_⟩
    · have := h.granted
      rwa [fed_eq] at this
    · rw [fed_eq]
      dsimp only
      obtain ⟨st, hst⟩ := Option.ne_none_iff_exists'.mp hfailed
      rw [hst]
      simp
  obtain ⟨hctl, hallocs, hgranted, hout⟩ := hlive
  by_cases hops : (fed fc always always chunks (c 1)).1 = none
  swap
  · refine .inr ⟨fun h => hops h.ops, fun out => ?_⟩
    obtain ⟨st, hst⟩ := Option.ne_none_iff_exists'.mp hops
    have hsame : (fed fc a c chunks (c 1)).1 = some st := by
      rw [← hst, fed_eq, fed_eq]
      exact congrArg Writer.st hctl
    rw [hsame]
    simp
  have hst : (fed fc a c chunks (c 1)).1 = none := by
    rw [← hops, fed_eq, fed_eq]
    exact congrArg Writer.st hctl
  have hctl' : (fed fc a c chunks (c 1)).2.ctl = (fed fc always always chunks (c 1)).2.ctl := by
    rw [fed_eq, fed_eq]
    exact hctl
  have hctlst : (fed fc a c chunks (c 1)).2.ctl.st = none := by
    rw [← hst, fed_eq]
  rw [hst]
  dsimp only
  by_cases hclosed : (fed fc always always chunks (c 1)).2.ctl.stack.length = 1
  swap
  · refine .inr ⟨fun h => hclosed h.closed, fun out => ?_⟩
    rw [finish, if_pos (by rwa [hctl'])]
    simp
  by_cases hempty : (fed fc a c chunks (c 1)).2.out.null = true →
      c (fed fc a c chunks (c 1)).2.allocs = true
  · refine .inl ⟨⟨hstruct, hops, hclosed, by rwa [fed_eq], hempty⟩, ?_, ?_⟩
    · rw [fed_eq, fed_eq]
      exact hout
    · exact finish_ok (by rwa [hctl']) hctlst hempty
  · refine .inr ⟨fun h => hempty h.empty, fun out => ?_⟩
    push Not at hempty
    rw [finish, if_neg (by rwa [hctl', not_not]), hctlst]
    dsimp only
    rw [if_pos hempty.1, if_neg hempty.2]
    simp

/-- With or without its root frame, a writer is not accepted both ways. -/
lemma closed_once (hops : (fed fc always always chunks false).1 = none)
    (hclosed : (fed fc always always chunks false).2.ctl.stack.length = 1)
    (hops' : (fed fc always always chunks true).1 = none) :
    (fed fc always always chunks true).2.ctl.stack.length ≠ 1 := by
  rw [fed_eq] at hops hclosed hops' ⊢
  dsimp only at hops hclosed hops' ⊢
  rw [run_always] at hops hclosed hops' ⊢
  have hlen := Writer.length_runs _ hops hops'
  have hzero : (start false).ctl.stack.length = 0 := rfl
  have hone : (start true).ctl.stack.length = 1 := rfl
  omega

/-- Where no request is refused, a session hands over the text of the writer. -/
lemma session_always :
    session fc always always chunks =
      match Writer.new.feeds fc chunks with
      | (some st, _) => .error st
      | (none, w) => w.finish.map fun t => (some (t ++ [0]), t.length) := by
  rw [session_eq rfl, show always 1 = true from rfl, Writer.feeds_eq rfl rfl]
  have hbeside := (beside_start (a := always) (c := always) true).run fc (Nat.le_refl 2)
    (chunks.flatMap chunkOps)
  have hctl : (fed fc always always chunks true).2.ctl =
      machineRun Writer.st (Writer.take fc) Writer.new (chunks.flatMap chunkOps) := by
    rw [fed_eq]
    exact run_always _
  have hst : (fed fc always always chunks true).1 =
      (machineRun Writer.st (Writer.take fc) Writer.new (chunks.flatMap chunkOps)).st := by
    rw [← hctl, fed_eq]
  have hout : OutBeside always (fed fc always always chunks true).2.out
      (fed fc always always chunks true).2.out (fed fc always always chunks true).2.ctl.out := by
    rw [fed_eq]
    rcases hbeside with hlive | ⟨-, hrefused⟩
    · exact hlive.out
    · exact absurd (fun _ _ _ => rfl) hrefused
  rw [hst]
  cases hfinal : (machineRun Writer.st (Writer.take fc) Writer.new
      (chunks.flatMap chunkOps)).st with
  | some st => rfl
  | none =>
    dsimp only
    rw [Writer.finish, ← hctl]
    split_ifs with hlen
    · rw [finish, if_pos hlen]
      rfl
    · have hfine : (fed fc always always chunks true).2.ctl.st = none := by rw [hctl, hfinal]
      rw [finish_ok (not_not.mp hlen) hfine fun _ => rfl, hfine, takenText_sane hout.sane,
        hout.data]
      rfl

/-- What an accepted session with its root frame should hand over. -/
lemma session_rooted (hacc : Accepted fc a c chunks) (hroot : c 1 = true) :
    session fc always always chunks =
      .ok (some ((fed fc always always chunks true).2.ctl.out ++ [0]),
        (fed fc always always chunks true).2.ctl.out.length) := by
  have hops := hacc.ops
  have hclosed := hacc.closed
  rw [hroot] at hops hclosed
  have hideal : Accepted fc always always chunks :=
    ⟨rfl, hops, hclosed, fun _ _ _ => rfl, fun _ => rfl⟩
  rcases session_cases fc always always chunks with
    ⟨-, hout, hsession⟩ | ⟨hnot, -⟩
  · rw [show always 1 = true from rfl] at hout hsession
    rw [hsession, takenText_sane hout.sane, hout.data]
  · exact absurd hideal hnot

/-- A session accepted without its root frame is no session otherwise. -/
lemma session_rootless (hacc : Accepted fc a c chunks) (hroot : c 1 = false)
    (out : Option Bytes × ℕ) :
    session fc always always chunks ≠ .ok out := by
  have hops := hacc.ops
  have hclosed := hacc.closed
  rw [hroot] at hops hclosed
  rcases session_cases fc always always chunks with
    ⟨hideal, -⟩ | ⟨-, hnone⟩
  · exact absurd hideal.closed (closed_once hops hclosed hideal.ops)
  · exact hnone out

/-- A session hands over the whole text exactly where, if it is accepted, nothing was lost. -/
lemma session_whole_iff :
    Whole (session fc a c chunks) (session fc always always chunks) ↔
      (Accepted fc a c chunks → NothingLost fc a c chunks) := by
  rcases session_cases fc a c chunks with
    ⟨hacc, hout, hsession⟩ | ⟨hacc, hnone⟩
  swap
  · exact iff_of_true (fun out hok => absurd hok (hnone out)) fun h => absurd h hacc
  rw [hsession]
  cases hroot : c 1 with
  | false =>
    refine iff_of_false (fun hwhole => ?_) fun hlost => ?_
    · exact session_rootless hacc hroot _ (hwhole _ rfl).2
    · have := (hlost hacc).1
      rw [hroot] at this
      exact Bool.false_ne_true this
  | true =>
    rw [hroot] at hout
    rw [session_rooted hacc hroot]
    have htaken := hout.taken_iff
    constructor
    · intro hwhole _
      have hsame := (hwhole _ rfl).2
      simp only [Except.ok.injEq, Prod.mk.injEq, Option.some.injEq, List.append_cancel_right_eq]
        at hsame
      exact ⟨hroot, htaken.mp hsame.1.symm⟩
    · intro hlost out hok
      rw [htaken.mpr (hlost hacc).2] at hok
      exact ⟨by rw [← Except.ok.inj hok]; rfl, hok⟩

end WriterTo

end Teptris
