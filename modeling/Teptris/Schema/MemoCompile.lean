import Teptris.Schema.Compile
import Teptris.Schema.MemoTable

/-!
# Compiling with the memo

`sch_compile_node` over the table of `memo`: what is found there is answered, and what is not is
made and put there, in front of its keywords.  The nodes are numbered as they are made.  As long as
fewer than 2 ^ 32 values are put, the machine does what that of `Compile` does, where a value is in
`memo` once it was put there (`Mirrors`).
-/

namespace Teptris

/-! ## The memo -/

/-- `memo_entry`, without its `src`. -/
structure MemoEntry where
  /-- `node`, by its number. -/
  node : ℕ
  /-- `in_progress`. -/
  inProgress : Bool

/-- The first capacity of `memo`. -/
def memoFirst : ℕ := 16

/-- The first capacity of `node_bases`. -/
def nodeBaseFirst : ℕ := 64

/-- The table of `memo`. -/
abbrev Memo := PtrTable MemoEntry

namespace Memo

/-- `memo_get`: the node, and whether it is in progress. -/
def get (m : Memo) (v : UInt64) : Option (Option MemoEntry) :=
  (m.hashFind v).map fun idx => idx.bind fun i => m.entries[i]?.map Prod.snd

/-- `memo_put`. -/
def add (m : Memo) (v : UInt64) (node : ℕ) : Option Memo := m.put memoFirst v ⟨node, true⟩

/-- `memo_done`. -/
def finish (m : Memo) (v : UInt64) : Option Memo :=
  (m.hashFind v).map fun idx =>
    match idx with
    | none => m
    | some i => { m with entries := m.entries.modify i fun e => (e.1, ⟨e.2.node, false⟩) }

end Memo

/-! ## The machine -/

/-- What the C stack holds. -/
inductive MemoFrame (P : Type) where
  /-- A `sch_compile_node` that fills a node, with the steps to come. -/
  | node (p : P) (node : ℕ) (todo : List (Step P))
  /-- A `build_self_scope`, with the values to come. -/
  | walk (todo : List P)

/-- Where a compile stands. -/
structure MemoCtl (P : Type) where
  /-- `memo`. -/
  memo : Memo := {}
  /-- The values that `sch_node_new` was called for, in this order. -/
  made : List P := []
  /-- The calls of `sch_compile_node`, with the nodes they come to. -/
  answers : List (P × ℕ) := []
  /-- The C stack. -/
  stack : List (MemoFrame P) := []

/-- A refused value fails what waits for it, up to a `build_self_scope`. -/
def memoUnwind {P : Type} : List (MemoFrame P) → List (MemoFrame P)
  | .node _ _ _ :: fs => memoUnwind fs
  | fs => fs

namespace MemoCtl

variable {P : Type} (env : CompileEnv P) (addr : P → UInt64)

/-- A new node for a value, and its place in `memo`. -/
def make (c : MemoCtl P) (q : P) : Option (MemoCtl P) :=
  (c.memo.add (addr q) c.made.length).map fun memo =>
    { c with memo, made := c.made ++ [q], answers := c.answers ++ [(q, c.made.length)] }

/-- `memo_done`. -/
def finish (c : MemoCtl P) (q : P) : Option (MemoCtl P) :=
  (c.memo.finish (addr q)).map fun memo => { c with memo }

/-- `sch_compile_node` is called, with the stack below it; a loop that does not end is `none`. -/
def enter (c : MemoCtl P) (q : P) (below : List (MemoFrame P)) : Option (MemoCtl P) :=
  (c.memo.get (addr q)).bind fun
    | some hit => some { c with answers := c.answers ++ [(q, hit.node)], stack := below }
    | none =>
      match env.view q with
      | .bool _ => ((c.make addr q).bind (finish addr · q)).map fun c => { c with stack := below }
      | .object _ => (c.make addr q).map fun c' =>
          { c' with stack := .node q c.made.length (compileSteps env q) :: below }
      | _ => some { c with stack := memoUnwind below }

/-- A step of a schema object. -/
def nodeStep (c : MemoCtl P) (p : P) (node : ℕ) (todo : List (Step P)) (fs : List (MemoFrame P)) :
    Step P → Option (MemoCtl P)
  | .fail => some { c with stack := memoUnwind fs }
  | .sub q => c.enter env addr q (.node p node todo :: fs)
  | .scope q => some { c with stack := .walk [q] :: .node p node todo :: fs }
  | .grow _ | .store _ _ => some { c with stack := .node p node todo :: fs }

/-- A value of `build_self_scope`. -/
def walkStep (c : MemoCtl P) (q : P) (qs : List P) (fs : List (MemoFrame P)) :
    Option (MemoCtl P) :=
  match env.view q with
  | .object ms => c.enter env addr q (.walk (ms.map (·.2) ++ qs) :: fs)
  | .array items => some { c with stack := .walk (items ++ qs) :: fs }
  | _ => some { c with stack := .walk qs :: fs }

/-- A step of a compile. -/
def step (c : MemoCtl P) : Option (MemoCtl P) :=
  match c.stack with
  | [] => some c
  | .node p _ [] :: fs => (c.finish addr p).map fun c => { c with stack := fs }
  | .node p node (st :: todo) :: fs => c.nodeStep env addr p node todo fs st
  | .walk [] :: fs => some { c with stack := fs }
  | .walk (q :: qs) :: fs => c.walkStep env addr q qs fs

end MemoCtl

/-- A compile of the schema at a place, after some steps. -/
def memoRun {P : Type} (env : CompileEnv P) (addr : P → UInt64) (root : P) : ℕ → Option (MemoCtl P)
  | 0 => MemoCtl.enter env addr {} root []
  | n + 1 => (memoRun env addr root n).bind (MemoCtl.step env addr)

/-- One node is made for a value, a call for it comes to that node, and a call while its node is
being filled, in a cycle of references, comes back to it. -/
structure MemoCtl.OneNode {P : Type} (c : MemoCtl P) : Prop where
  /-- No value is made a node for twice. -/
  nodup : c.made.Nodup
  /-- A call comes to the node of its value. -/
  answer : ∀ q i, (q, i) ∈ c.answers → c.made[i]? = some q
  /-- And so it does in a cycle. -/
  cycle : ∀ p i j todo, .node p i todo ∈ c.stack → (p, j) ∈ c.answers → j = i

/-- Every state of a compile up to a step is reached, looks pointers up rightly, and has one node
for a value. -/
def CompileExact {P : Type} (env : CompileEnv P) (addr : P → UInt64) (root : P) (n : ℕ) : Prop :=
  ∀ i ≤ n, ∃ c, memoRun env addr root i = some c ∧ c.memo.Exact ∧ c.OneNode

/-! ## What the memo holds -/

section Memo

variable {P : Type} {env : CompileEnv P} {addr : P → UInt64} {memo : List P} {m m' : MemoCtl P}
  {q : P} {fs : List (MemoFrame P)}

/-- The nodes that were made are those of some values, the last one first, and `memo` leads to
them. -/
structure MemoHolds (addr : P → UInt64) (memo : List P) (m : MemoCtl P) : Prop where
  /-- The table. -/
  good : m.memo.Good
  /-- The values. -/
  made : m.made = memo.reverse
  /-- The entries, with the numbers of the nodes. -/
  entries : m.memo.entries.map (fun e => (e.1, e.2.node)) =
    m.made.zipIdx.map fun x => (addr x.1, x.2)
  /-- The calls. -/
  answers : ∀ q i, (q, i) ∈ m.answers → m.made[i]? = some q

/-- The frames fill the nodes of their values. -/
def Filling (made : List P) (fs : List (MemoFrame P)) : Prop :=
  ∀ p i todo, .node p i todo ∈ fs → made[i]? = some p

/-- Entries that are changed elsewhere. -/
lemma map_modify_of_eq {α β : Type} (l : List α) (i : ℕ) {f : α → α} {g : α → β}
    (h : ∀ a, g (f a) = g a) : (l.modify i f).map g = l.map g := by
  refine List.ext_getElem? fun j => ?_
  rw [List.getElem?_map, List.getElem?_modify, List.getElem?_map]
  cases l[j]? with
  | none => rfl
  | some a =>
    simp only [Option.map_some]
    split_ifs
    · exact congrArg some (h a)
    · rfl

lemma MemoHolds.keys (h : MemoHolds addr memo m) : m.memo.keys = m.made.map addr := by
  have hfst := congrArg (List.map Prod.fst) h.entries
  rw [List.map_map, List.map_map] at hfst
  refine hfst.trans ?_
  have hzip : m.made.zipIdx.map Prod.fst = m.made := List.zipIdx_map_fst 0 _
  conv_rhs => rw [← hzip, List.map_map]
  rfl

lemma MemoHolds.length (h : MemoHolds addr memo m) : m.memo.entries.length = memo.length := by
  rw [← PtrTable.length_keys, h.keys, List.length_map, h.made, List.length_reverse]

lemma MemoHolds.nodup (h : MemoHolds addr memo m) : m.made.Nodup := by
  have hkeys := h.good.nodup
  rw [h.keys] at hkeys
  exact hkeys.of_map

lemma MemoHolds.addr_not_mem (h : MemoHolds addr memo m) (haddr : Function.Injective addr)
    (hq : q ∉ memo) : addr q ∉ m.memo.keys := by
  rw [h.keys, h.made, List.mem_map_of_injective haddr, List.mem_reverse]
  exact hq

/-- An entry is of the value with its number, and has its node. -/
lemma MemoHolds.entry (h : MemoHolds addr memo m) {i : ℕ} {e : UInt64 × MemoEntry}
    (he : m.memo.entries[i]? = some e) :
    ∃ p, m.made[i]? = some p ∧ e.1 = addr p ∧ e.2.node = i := by
  have hpair := congrArg (fun l => l[i]?) h.entries
  simp only [List.getElem?_map, he, Option.map_some, List.getElem?_zipIdx, Nat.zero_add,
    Option.map_map] at hpair
  obtain ⟨p, hp, heq⟩ := Option.map_eq_some_iff.mp hpair.symm
  obtain ⟨haddr, hnode⟩ := Prod.mk.inj heq
  exact ⟨p, hp, haddr.symm, hnode.symm⟩

/-- What `memo_get` answers for a value that was put. -/
lemma MemoHolds.get_of_mem (h : MemoHolds addr memo m) (haddr : Function.Injective addr)
    (hq : q ∈ memo) : ∃ e, m.memo.get (addr q) = some (some e) ∧ m.made[e.node]? = some q := by
  have hkey : addr q ∈ m.memo.keys := by
    rw [h.keys, h.made]
    exact List.mem_map_of_mem (List.mem_reverse.mpr hq)
  obtain ⟨e₀, he₀, hek⟩ := List.mem_map.mp hkey
  cases hidx : m.memo.entries.findIdx? fun e => e.1 == addr q with
  | none =>
    have hno := List.findIdx?_eq_none_iff.mp hidx e₀ he₀
    rw [hek] at hno
    simp at hno
  | some i =>
    obtain ⟨hlt, hfound, -⟩ := List.findIdx?_eq_some_iff_getElem.mp hidx
    have hget : m.memo.entries[i]? = some m.memo.entries[i] := List.getElem?_eq_getElem hlt
    obtain ⟨p, hp, hpk, hnode⟩ := h.entry hget
    obtain rfl : p = q := haddr (hpk.symm.trans (by simpa using hfound))
    refine ⟨m.memo.entries[i].2, ?_, by rwa [hnode]⟩
    rw [Memo.get, h.good.exact, hidx, Option.map_some, Option.bind_some, hget, Option.map_some]

/-- And for one that was not. -/
lemma MemoHolds.get_of_not_mem (h : MemoHolds addr memo m) (haddr : Function.Injective addr)
    (hq : q ∉ memo) : m.memo.get (addr q) = some none := by
  have hkey : addr q ∉ m.memo.keys := h.addr_not_mem haddr hq
  have hidx : (m.memo.entries.findIdx? fun e => e.1 == addr q) = none := by
    refine List.findIdx?_eq_none_iff.mpr fun e he => ?_
    rw [beq_eq_false_iff_ne]
    exact fun hek => hkey (hek ▸ List.mem_map_of_mem he)
  rw [Memo.get, h.good.exact, hidx, Option.map_some, Option.bind_none]

/-- `memo_done` changes no node. -/
lemma MemoHolds.finish (h : MemoHolds addr memo m) (q : P) :
    ∃ m', m.finish addr q = some m' ∧ MemoHolds addr memo m' ∧ m'.made = m.made ∧
      m'.stack = m.stack := by
  rw [MemoCtl.finish, Memo.finish, h.good.exact]
  cases m.memo.entries.findIdx? fun e => e.1 == addr q with
  | none => exact ⟨_, rfl, ⟨h.good, h.made, h.entries, h.answers⟩, rfl, rfl⟩
  | some i =>
    have hkeys : (m.memo.entries.modify i fun e => (e.1, ⟨e.2.node, false⟩)).map Prod.fst =
        m.memo.keys := map_modify_of_eq _ _ fun _ => rfl
    refine ⟨_, rfl, ⟨⟨?_, ?_⟩, h.made, ?_, h.answers⟩, rfl, rfl⟩
    · rw [PtrTable.keys, hkeys]
      exact h.good.nodup
    · rw [PtrTable.keys, hkeys]
      refine h.good.tabled.imp_left fun hnone => ⟨hnone.1, ?_⟩
      simp only [hnone.2, List.modify_nil]
    · rw [← h.entries]
      exact map_modify_of_eq _ _ fun _ => rfl

/-- A value that was not put is put, below 2 ^ 32. -/
lemma MemoHolds.make (h : MemoHolds addr memo m) (haddr : Function.Injective addr) (hq : q ∉ memo)
    (hlen : memo.length + 1 < 2 ^ 32) :
    ∃ m', m.make addr q = some m' ∧ MemoHolds addr (q :: memo) m' ∧ m'.made = m.made ++ [q] ∧
      m'.stack = m.stack := by
  obtain ⟨t, hput, hentries, hgood⟩ := h.good.put memoFirst ⟨m.made.length, true⟩
    (h.addr_not_mem haddr hq) (by rwa [h.length])
  refine ⟨{ m with memo := t, made := m.made ++ [q], answers := m.answers ++ [(q, m.made.length)] },
    by rw [MemoCtl.make, Memo.add, hput]; rfl, ⟨hgood, ?_, ?_, ?_⟩, rfl, rfl⟩
  · rw [h.made, List.reverse_cons]
  · rw [hentries, List.map_append, h.entries, List.zipIdx_append, List.map_append]
    simp
  · intro p i hmem
    rcases List.mem_append.mp hmem with hold | hnew
    · have hp := h.answers p i hold
      rwa [List.getElem?_append_left (List.getElem?_eq_some_iff.mp hp).1]
    · obtain ⟨rfl, rfl⟩ := Prod.mk.inj (List.mem_singleton.mp hnew)
      exact List.getElem?_concat_length

/-- The value with the number 2 ^ 32 is not found. -/
lemma MemoHolds.make_last (h : MemoHolds addr memo m) (haddr : Function.Injective addr)
    (hq : q ∉ memo) (hlen : memo.length + 1 = 2 ^ 32) :
    ∃ m', m.make addr q = some m' ∧ m'.finish addr q = some m' ∧ ¬ m'.memo.Exact := by
  obtain ⟨t, hput, hentries, hmissed⟩ := h.good.put_last memoFirst ⟨m.made.length, true⟩
    (h.addr_not_mem haddr hq) (by rwa [h.length])
  refine ⟨{ m with memo := t, made := m.made ++ [q], answers := m.answers ++ [(q, m.made.length)] },
    by rw [MemoCtl.make, Memo.add, hput]; rfl, ?_,
    PtrTable.not_exact_of_missed hentries hmissed⟩
  rw [MemoCtl.finish, Memo.finish, hmissed]
  rfl

end Memo

/-! ## The machine follows that without a table -/

section Machine

variable {P : Type} {env : CompileEnv P} {addr : P → UInt64} {c : Ctl P}
  {m : MemoCtl P} {q root : P} {fs : List (MemoFrame P)}

/-- A frame without its node. -/
def MemoFrame.toCall : MemoFrame P → CallFrame P
  | .node p _ todo => .node p todo
  | .walk todo => .walk todo

/-- The machine with the table stands where that without it stands. -/
structure Mirrors (addr : P → UInt64) (c : Ctl P) (m : MemoCtl P) : Prop where
  /-- `memo`. -/
  holds : MemoHolds addr c.memo m
  /-- The C stack. -/
  stack : m.stack.map MemoFrame.toCall = c.stack
  /-- Its frames fill the nodes of their values. -/
  filling : Filling m.made m.stack

/-- Up to 2 ^ 32 values the machine with the table comes to the same; the value with this number is
not found. -/
def MemoFollows (addr : P → UInt64) (c : Ctl P) (r : Option (MemoCtl P)) : Prop :=
  if c.memo.length < 2 ^ 32 then ∃ m, r = some m ∧ Mirrors addr c m
  else ∀ m, r = some m → ¬ m.memo.Exact

lemma MemoHolds.lt (h : MemoHolds addr c.memo m) : c.memo.length < 2 ^ 32 :=
    h.length ▸ h.good.bounded

lemma Filling.tail {made : List P} {f : MemoFrame P} (h : Filling made (f :: fs)) :
    Filling made fs := fun p i todo hmem => h p i todo (List.mem_cons_of_mem f hmem)

lemma Filling.append {made : List P} (h : Filling made fs) (qs : List P) :
    Filling (made ++ qs) fs := fun p i todo hmem => by
  have hp := h p i todo hmem
  rwa [List.getElem?_append_left (List.getElem?_eq_some_iff.mp hp).1]

lemma Filling.walk {made : List P} (h : Filling made fs) (todo : List P) :
    Filling made (.walk todo :: fs) := by
  intro p i steps hmem
  rcases List.mem_cons.mp hmem with hhead | htail
  · cases hhead
  · exact h p i steps htail

lemma Filling.node {made : List P} (h : Filling made fs) {p : P} {i : ℕ} (hp : made[i]? = some p)
    (todo : List (Step P)) : Filling made (.node p i todo :: fs) := by
  intro p' i' steps hmem
  rcases List.mem_cons.mp hmem with hhead | htail
  · cases hhead
    exact hp
  · exact h p' i' steps htail

lemma map_memoUnwind (fs : List (MemoFrame P)) :
    (memoUnwind fs).map MemoFrame.toCall = unwind (fs.map MemoFrame.toCall) := by
  induction fs with
  | nil => rfl
  | cons f fs ih =>
    cases f with
    | node p i todo => exact ih
    | walk todo => rfl

lemma Filling.unwind {made : List P} (h : Filling made fs) : Filling made (memoUnwind fs) := by
  induction fs with
  | nil => exact h
  | cons f fs ih =>
    cases f with
    | node p i todo => exact ih h.tail
    | walk todo => exact h

/-- A machine with another stack. -/
lemma MemoHolds.follows (h : MemoHolds addr c.memo m) (hfs : Filling m.made fs) :
    MemoFollows addr { c with stack := fs.map MemoFrame.toCall } (some { m with stack := fs }) := by
  rw [MemoFollows, if_pos h.lt]
  exact ⟨_, rfl, ⟨h.good, h.made, h.entries, h.answers⟩, rfl, hfs⟩

lemma memoHolds_start : MemoHolds addr [] ({} : MemoCtl P) :=
  ⟨PtrTable.good_new, rfl, rfl, fun _ _ hmem => absurd hmem List.not_mem_nil⟩

lemma filling_nil (made : List P) : Filling made [] :=
  fun _ _ _ hmem => absurd hmem List.not_mem_nil

/-- The machine has one node for a value. -/
lemma Mirrors.oneNode (h : Mirrors addr c m) : m.OneNode := by
  refine ⟨h.holds.nodup, h.holds.answers, fun p i j todo hframe hanswer => ?_⟩
  have hi := h.filling p i todo hframe
  have hj := h.holds.answers p j hanswer
  obtain ⟨hlt, -⟩ := List.getElem?_eq_some_iff.mp hj
  exact (List.getElem?_inj hlt h.holds.nodup).mp (hj.trans hi.symm)

variable [DecidableEq P]

/-- A call of `sch_compile_node`. -/
lemma MemoHolds.enter_follows (h : MemoHolds addr c.memo m) (haddr : Function.Injective addr)
    (hfs : Filling m.made fs) :
    MemoFollows addr (c.enter env q (fs.map MemoFrame.toCall)) (m.enter env addr q fs) := by
  by_cases hq : q ∈ c.memo
  · obtain ⟨e, hget, hnode⟩ := h.get_of_mem haddr hq
    rw [Ctl.enter, if_pos hq, MemoCtl.enter, hget, Option.bind_some, MemoFollows, if_pos h.lt]
    refine ⟨_, rfl, ⟨h.good, h.made, h.entries, fun p i hmem => ?_⟩, rfl, hfs⟩
    rcases List.mem_append.mp hmem with hold | hnew
    · exact h.answers p i hold
    · obtain ⟨rfl, rfl⟩ := Prod.mk.inj (List.mem_singleton.mp hnew)
      exact hnode
  rw [Ctl.enter, if_neg hq, MemoCtl.enter, h.get_of_not_mem haddr hq, Option.bind_some]
  have hlt := h.lt
  have hlen : (q :: c.memo).length = c.memo.length + 1 := rfl
  have hrefused : MemoFollows addr { c with stack := unwind (fs.map MemoFrame.toCall) }
      (some { m with stack := memoUnwind fs }) := map_memoUnwind fs ▸ h.follows hfs.unwind
  cases env.view q with
  | bool b =>
    rcases Nat.lt_or_ge (c.memo.length + 1) (2 ^ 32) with hroom | hfull
    · obtain ⟨m₁, hmake, h₁, hmade₁, -⟩ := h.make haddr hq hroom
      obtain ⟨m₂, hdone, h₂, hmade₂, -⟩ := h₁.finish q
      simp only [hmake, Option.bind_some, hdone, Option.map_some]
      rw [MemoFollows, if_pos (by rwa [hlen])]
      exact ⟨_, rfl, ⟨h₂.good, h₂.made, h₂.entries, h₂.answers⟩, rfl,
        by simpa only [hmade₂, hmade₁] using hfs.append [q]⟩
    · obtain ⟨m₁, hmake, hdone, hmissed⟩ := h.make_last haddr hq (by omega)
      simp only [hmake, Option.bind_some, hdone, Option.map_some]
      rw [MemoFollows, if_neg (by rw [hlen]; omega)]
      rintro _ ⟨⟩
      exact hmissed
  | object ms =>
    rcases Nat.lt_or_ge (c.memo.length + 1) (2 ^ 32) with hroom | hfull
    · obtain ⟨m₁, hmake, h₁, hmade₁, -⟩ := h.make haddr hq hroom
      simp only [hmake, Option.map_some]
      rw [MemoFollows, if_pos (by rwa [hlen])]
      refine ⟨_, rfl, ⟨h₁.good, h₁.made, h₁.entries, h₁.answers⟩, rfl, ?_⟩
      refine Filling.node ?_ ?_ _
      · simpa only [hmade₁] using hfs.append [q]
      · rw [hmade₁]
        exact List.getElem?_concat_length
    · obtain ⟨m₁, hmake, -, hmissed⟩ := h.make_last haddr hq (by omega)
      simp only [hmake, Option.map_some]
      rw [MemoFollows, if_neg (by rw [hlen]; omega)]
      rintro _ ⟨⟩
      exact hmissed
  | null => exact hrefused
  | number n => exact hrefused
  | string s => exact hrefused
  | array items => exact hrefused

/-- A step of the machine. -/
lemma Mirrors.step_follows (h : Mirrors addr c m) (haddr : Function.Injective addr) :
    MemoFollows addr (c.step env).2 (m.step env addr) := by
  have hstack := h.stack
  have hfilling := h.filling
  rw [Ctl.step, MemoCtl.step, ← hstack]
  cases hm : m.stack with
  | nil =>
    rw [MemoFollows, List.map_nil]
    simp only [if_pos h.holds.lt]
    exact ⟨m, rfl, h⟩
  | cons f fs =>
    rw [hm] at hfilling
    have hfs : Filling m.made fs := hfilling.tail
    cases f with
    | node p i todo =>
      have hp : m.made[i]? = some p := hfilling p i todo List.mem_cons_self
      cases todo with
      | nil =>
        obtain ⟨m₁, hdone, h₁, hmade₁, -⟩ := h.holds.finish p
        simp only [hdone, Option.map_some]
        exact MemoHolds.follows (c := { c with done := p :: c.done }) h₁ (hmade₁ ▸ hfs)
      | cons st todo =>
        have hnode : Filling m.made (.node p i todo :: fs) := hfs.node hp todo
        cases st with
        | fail =>
          change MemoFollows addr { c with stack := unwind (fs.map MemoFrame.toCall) }
            (some { m with stack := memoUnwind fs })
          exact map_memoUnwind fs ▸ h.holds.follows hfs.unwind
        | sub q => exact h.holds.enter_follows haddr hnode
        | scope q => exact h.holds.follows (hnode.walk [q])
        | grow d => exact h.holds.follows hnode
        | store d e => exact h.holds.follows hnode
    | walk todo =>
      cases todo with
      | nil => exact h.holds.follows hfs
      | cons q qs =>
        change MemoFollows addr (c.walkStep env q qs (fs.map MemoFrame.toCall))
          (m.walkStep env addr q qs fs)
        rw [Ctl.walkStep, MemoCtl.walkStep]
        cases env.view q with
        | object ms => exact h.holds.enter_follows haddr (hfs.walk (ms.map (·.2) ++ qs))
        | array items => exact h.holds.follows (hfs.walk (items ++ qs))
        | null => exact h.holds.follows (hfs.walk qs)
        | bool b => exact h.holds.follows (hfs.walk qs)
        | number n => exact h.holds.follows (hfs.walk qs)
        | string s => exact h.holds.follows (hfs.walk qs)

/-! ## Every run -/

lemma compileRun_ctl_succ (root : P) (n : ℕ) :
    (compileRun env root (n + 1)).ctl = ((compileRun env root n).ctl.step env).2 := by
  rw [compileRun, Function.iterate_succ_apply']
  rfl

/-- As long as fewer than 2 ^ 32 values are put the machine follows. -/
lemma memoRun_follows (haddr : Function.Injective addr) (root : P) (n : ℕ)
    (hlt : ∀ i < n, (compileRun env root i).ctl.memo.length < 2 ^ 32) :
    MemoFollows addr (compileRun env root n).ctl (memoRun env addr root n) := by
  cases n with
  | zero => exact memoHolds_start.enter_follows haddr (filling_nil _)
  | succ n =>
    have ih := memoRun_follows haddr root n fun i hi => hlt i (by omega)
    rw [MemoFollows, if_pos (hlt n (Nat.lt_succ_self n))] at ih
    obtain ⟨m, hrun, hm⟩ := ih
    rw [memoRun, hrun, Option.bind_some, compileRun_ctl_succ]
    exact hm.step_follows haddr

lemma length_memo_le_enter (c : Ctl P) (q : P) (below : List (CallFrame P)) :
    c.memo.length ≤ (c.enter env q below).memo.length := by
  rw [Ctl.enter]
  split_ifs
  · exact Nat.le_refl _
  · cases env.view q <;> simp

/-- What was put stays. -/
lemma length_memo_le_step (c : Ctl P) : c.memo.length ≤ (c.step env).2.memo.length := by
  rw [Ctl.step]
  cases c.stack with
  | nil => exact Nat.le_refl _
  | cons f fs =>
    cases f with
    | node p todo =>
      cases todo with
      | nil => exact Nat.le_refl _
      | cons st todo =>
        cases st with
        | sub q => exact length_memo_le_enter c q _
        | fail | scope q | grow d | store d e => exact Nat.le_refl _
    | walk todo =>
      cases todo with
      | nil => exact Nat.le_refl _
      | cons q qs =>
        simp only [Ctl.walkStep]
        cases env.view q with
        | object ms => exact length_memo_le_enter c q _
        | null | bool b | number n | string s | array items => exact Nat.le_refl _

lemma compileRun_memo_mono (root : P) {i n : ℕ} (h : i ≤ n) :
    (compileRun env root i).ctl.memo.length ≤ (compileRun env root n).ctl.memo.length := by
  induction h with
  | refl => exact Nat.le_refl _
  | @step n _ ih =>
    rw [compileRun_ctl_succ]
    exact Nat.le_trans ih (length_memo_le_step _)

/-- A compile looks pointers up rightly and makes one node for a value, if and only if it puts fewer
than 2 ^ 32 values. -/
theorem compileExact_iff (haddr : Function.Injective addr) (root : P) (n : ℕ) :
    CompileExact env addr root n ↔ (compileRun env root n).ctl.memo.length < 2 ^ 32 := by
  constructor
  · intro h
    by_contra hge
    -- the first step that puts the value with the number 2 ^ 32
    have hex : ∃ i, ¬ (compileRun env root i).ctl.memo.length < 2 ^ 32 := ⟨n, hge⟩
    have hfollows := memoRun_follows haddr root (Nat.find hex) fun i hi =>
      not_not.mp (Nat.find_min hex hi)
    rw [MemoFollows, if_neg (Nat.find_spec hex)] at hfollows
    obtain ⟨m, hrun, hexact, -⟩ := h (Nat.find hex) (Nat.find_min' hex hge)
    exact hfollows m hrun hexact
  · intro hlt i hi
    have hbefore : ∀ j ≤ n, (compileRun env root j).ctl.memo.length < 2 ^ 32 := fun j hj =>
      Nat.lt_of_le_of_lt (compileRun_memo_mono root hj) hlt
    have hfollows := memoRun_follows haddr root i fun j hj => hbefore j (by omega)
    rw [MemoFollows, if_pos (hbefore i hi)] at hfollows
    obtain ⟨m, hrun, hm⟩ := hfollows
    exact ⟨m, hrun, hm.holds.good.exact, hm.oneNode⟩

end Machine

/-- Insertions of different pointers into `memo` and into `node_bases` leave tables that are looked
up rightly, and a compile has one node for a value, which its cycles come back to, if and only if
there are fewer than 2 ^ 32 insertions. -/
theorem memo_tables_iff {α P : Type} [DecidableEq P] {memoPuts : List (UInt64 × MemoEntry)}
    {basePuts : List (UInt64 × α)} (hmemo : (memoPuts.map Prod.fst).Nodup)
    (hbase : (basePuts.map Prod.fst).Nodup) (env : CompileEnv P) {addr : P → UInt64}
    (haddr : Function.Injective addr) (root : P) (n : ℕ) :
    (PutsExact memoFirst memoPuts ↔ memoPuts.length < 2 ^ 32) ∧
      (PutsExact nodeBaseFirst basePuts ↔ basePuts.length < 2 ^ 32) ∧
      (CompileExact env addr root n ↔ (compileRun env root n).ctl.memo.length < 2 ^ 32) :=
  ⟨putsExact_iff memoFirst hmemo, putsExact_iff nodeBaseFirst hbase, compileExact_iff haddr root n⟩

/-- `{"$ref": "#"}`, the object and its text. -/
def selfRefEnv : CompileEnv Bool where
  view q := if q then .object [(ascii "$ref", false)] else .string (ascii "#")
  vocabMask := 31
  dialectDeclared := false
  target _ := some true
  resourceRoot _ := true
  isIntegral _ := false
  isPositive _ := false
  regexOk _ := true

/-- Where they are in memory. -/
def selfRefAddr (q : Bool) : UInt64 := if q then 0x1000 else 0x1040

/-- Two entries of `memo`. -/
def twoEntries : List (UInt64 × MemoEntry) := [(0x1000, ⟨0, true⟩), (0x1040, ⟨1, true⟩)]

/-- Two insertions into each of the tables, and a schema that refers to itself. -/
theorem memo_tables_selfRef :
    PutsExact memoFirst twoEntries ∧ PutsExact nodeBaseFirst twoEntries ∧
      CompileExact selfRefEnv selfRefAddr true 8 := by
  have hputs : (twoEntries.map Prod.fst).Nodup := by decide
  have haddr : Function.Injective selfRefAddr := by decide
  obtain ⟨hmemo, hbase, hcompile⟩ := memo_tables_iff hputs hputs selfRefEnv haddr true 8
  exact ⟨hmemo.mpr (by decide), hbase.mpr (by decide), hcompile.mpr (by decide +kernel)⟩

/-- The numbers below `n` as pointers. -/
def numberedPuts (n : ℕ) : List (UInt64 × MemoEntry) :=
  (List.range n).map fun i => (UInt64.ofNat i, ⟨i, true⟩)

lemma numberedPuts_nodup {n : ℕ} (h : n ≤ 2 ^ 64) : ((numberedPuts n).map Prod.fst).Nodup := by
  rw [numberedPuts, List.map_map]
  refine List.Nodup.map_on (fun i hi j hj hij => ?_) List.nodup_range
  have hnat := congrArg UInt64.toNat (show UInt64.ofNat i = UInt64.ofNat j from hij)
  rwa [UInt64.toNat_ofNat_of_lt' (lt_of_lt_of_le (List.mem_range.mp hi) h),
    UInt64.toNat_ofNat_of_lt' (lt_of_lt_of_le (List.mem_range.mp hj) h)] at hnat

/-- The last one of 2 ^ 32 insertions is not found. -/
theorem memo_number_wraps : ¬ ∀ puts : List (UInt64 × MemoEntry),
    (puts.map Prod.fst).Nodup → PutsExact memoFirst puts := by
  intro h
  have hnodup := numberedPuts_nodup (n := 2 ^ 32) (Nat.pow_le_pow_right (by decide) (by decide))
  have hlen : (numberedPuts (2 ^ 32)).length = 2 ^ 32 := by
    rw [numberedPuts, List.length_map, List.length_range]
  have hlt := (putsExact_iff memoFirst hnodup).mp (h _ hnodup)
  rw [hlen] at hlt
  exact Nat.lt_irrefl _ hlt

end Teptris
