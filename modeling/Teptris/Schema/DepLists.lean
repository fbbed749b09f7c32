import Teptris.Schema.Compile

/-!
# The lists of dependencies

Every schema object has lists of its own, but the capacities they grow by are counted for all of
them together.  Which objects a compile comes to, and in which order, does not depend on the
lists; what they hold in the end is right exactly if all the pairs of a kind are stored for the
object that was the first to ask for room.
-/

namespace Teptris

open SharedCap

/-! ## What an object declares -/

section Pairs

variable {P : Type} (env : CompileEnv P)

/-- The pair a member of `dependencies` declares. -/
def dependencyPair (d : Dep) (m : Bytes × P) : Option (DepPair P) :=
  match d, env.view m.2 with
  | .req, .array items => (namesOf env items).map fun ns => (m.1, .names ns)
  | .schemas, .object _ => some (m.1, .schema m.2)
  | .schemas, .bool _ => some (m.1, .schema m.2)
  | _, _ => none

/-- The pair a member of `dependentRequired` declares. -/
def requiredPair (d : Dep) (m : Bytes × P) : Option (DepPair P) :=
  match d, env.view m.2 with
  | .req, .array items => (namesOf env items).map fun ns => (m.1, .names ns)
  | _, _ => none

/-- The pair a member of `dependentSchemas` declares. -/
def schemaPair (d : Dep) (m : Bytes × P) : Option (DepPair P) :=
  match d with
  | .req => none
  | .schemas => some (m.1, .schema m.2)

/-- The pairs a keyword declares. -/
def keywordPairs (d : Dep) (k : Bytes) (p : P) : List (DepPair P) :=
  if k = ascii "dependencies" then (membersAt env p).filterMap (dependencyPair env d)
  else if k = ascii "dependentRequired" then (membersAt env p).filterMap (requiredPair env d)
  else if k = ascii "dependentSchemas" then (membersAt env p).filterMap (schemaPair d)
  else []

/-- The pairs a schema object declares, in the order of the text. -/
def ownPairs (d : Dep) (p : P) : List (DepPair P) :=
  (membersAt env p).flatMap fun m => if isGated env m.1 then [] else keywordPairs env d m.1 m.2

end Pairs

/-! ## Steps and their events -/

section Steps

variable {P : Type}

/-- What a step of an object does to its list of a kind. -/
def stepEvent (d : Dep) (p : P) : Step P → Option (Event P (DepPair P))
  | .grow d' => if d' = d then some (.grow p) else none
  | .store d' e => if d' = d then some (.store p e) else none
  | _ => none

/-- What the steps of an object do to its list of a kind. -/
def eventsIn (d : Dep) (p : P) (l : List (Step P)) : List (Event P (DepPair P)) :=
  l.filterMap (stepEvent d p)

/-- The pairs that steps store. -/
def storesIn (d : Dep) (l : List (Step P)) : List (DepPair P) :=
  l.filterMap fun
    | .store d' e => if d' = d then some e else none
    | _ => none

lemma eventsIn_append (d : Dep) (p : P) (l l' : List (Step P)) :
    eventsIn d p (l ++ l') = eventsIn d p l ++ eventsIn d p l' := List.filterMap_append

lemma storesIn_append (d : Dep) (l l' : List (Step P)) :
    storesIn d (l ++ l') = storesIn d l ++ storesIn d l' := List.filterMap_append

lemma owner_of_stepEvent {d : Dep} {p : P} {st : Step P} {ev : Event P (DepPair P)}
    (h : stepEvent d p st = some ev) : ev.owner = p := by
  cases st with
  | grow d' | store d' e =>
    simp only [stepEvent] at h
    split_ifs at h
    cases h
    rfl
  | fail | sub | scope => cases h

lemma stored_eventsIn [DecidableEq P] (d : Dep) (p : P) (l : List (Step P)) :
    stored p (eventsIn d p l) = storesIn d l := by
  rw [stored, eventsIn, storesIn, List.filterMap_filterMap]
  congr 1
  funext st
  cases st with
  | grow d' | store d' e =>
    simp only [stepEvent]
    split_ifs <;> simp
  | fail | sub | scope => rfl

/-- Room for every pair is asked for right before, among the steps of its kind. -/
def Paired (l : List (Step P)) : Prop :=
  ∀ pre d e post, l = pre ++ .store d e :: post →
    ∀ p : P, (eventsIn d p pre).getLast? = some (.grow p)

lemma Paired.of_no_store {l : List (Step P)} (h : ∀ d e, .store d e ∉ l) : Paired l := by
  rintro pre d e post rfl
  exact absurd (List.mem_append_right pre List.mem_cons_self) (h d e)

lemma Paired.append {l l' : List (Step P)} (h : Paired l) (h' : Paired l') :
    Paired (l ++ l') := by
  intro pre d e post heq p
  rcases List.append_eq_append_iff.mp heq with ⟨a, rfl, ha⟩ | ⟨a, rfl, ha⟩
  · rw [eventsIn_append, List.getLast?_append, h' a d e post ha p, Option.some_or]
  · cases a with
    | nil =>
      have := h' [] d e post ha.symm p
      cases this
    | cons st a =>
      obtain ⟨rfl, -⟩ := List.cons.inj ha
      exact h pre d e a rfl p

lemma Paired.flatMap {α : Type} {f : α → List (Step P)} {xs : List α}
    (h : ∀ x ∈ xs, Paired (f x)) : Paired (xs.flatMap f) := by
  induction xs with
  | nil => exact Paired.of_no_store (by simp)
  | cons x xs ih =>
    rw [List.flatMap_cons]
    exact (h x List.mem_cons_self).append (ih fun y hy => h y (List.mem_cons_of_mem x hy))

/-- What is stored by a list of members, each of which stores one pair at most. -/
lemma storesIn_flatMap {α : Type} {d : Dep} {f : α → List (Step P)} {g : α → Option (DepPair P)}
    {xs : List α} (h : ∀ x ∈ xs, storesIn d (f x) = (g x).toList) :
    storesIn d (xs.flatMap f) = xs.filterMap g := by
  induction xs with
  | nil => rfl
  | cons x xs ih =>
    rw [List.flatMap_cons, storesIn_append, h x List.mem_cons_self,
      ih fun y hy => h y (List.mem_cons_of_mem x hy)]
    cases hg : g x with
    | none => simp [hg]
    | some e => simp [hg]

end Steps

/-! ## The steps of a keyword -/

section Keywords

variable {P : Type} (env : CompileEnv P)

lemma compileDepReq_paired (key : Bytes) (items : List P) :
    Paired (compileDepReq env key items) := by
  rw [compileDepReq]
  split
  · rintro (_ | ⟨a, _ | ⟨b, pre⟩⟩) d e post heq p
    · simp at heq
    · simp only [List.cons_append, List.nil_append, List.cons.injEq, Step.store.injEq] at heq
      obtain ⟨rfl, ⟨rfl, -⟩, -⟩ := heq
      simp [eventsIn, stepEvent]
    · simp at heq
  · exact Paired.of_no_store (by simp)

lemma compileDepSchema_paired (key : Bytes) (q : P) : Paired (compileDepSchema key q) := by
  rintro (_ | ⟨a, _ | ⟨b, _ | ⟨c, pre⟩⟩⟩) d e post heq p
  · simp [compileDepSchema] at heq
  · simp [compileDepSchema] at heq
  · simp only [compileDepSchema, List.cons_append, List.nil_append, List.cons.injEq,
      Step.store.injEq] at heq
    obtain ⟨rfl, rfl, ⟨rfl, -⟩, -⟩ := heq
    rfl
  · simp [compileDepSchema] at heq

lemma dependencySteps_paired (m : Bytes × P) : Paired (dependencySteps env m) := by
  rw [dependencySteps]
  split
  · exact compileDepReq_paired env _ _
  · exact compileDepSchema_paired _ _
  · exact compileDepSchema_paired _ _
  · exact Paired.of_no_store (by simp)

lemma dependentRequiredSteps_paired (m : Bytes × P) : Paired (dependentRequiredSteps env m) := by
  rw [dependentRequiredSteps]
  split
  · exact compileDepReq_paired env _ _
  · exact Paired.of_no_store (by simp)

lemma depSteps_paired (k : Bytes) (p : P) : Paired (depSteps env k p) := by
  rw [depSteps]
  split_ifs
  · exact Paired.flatMap fun m _ => dependencySteps_paired env m
  · exact Paired.flatMap fun m _ => dependentRequiredSteps_paired env m
  · exact Paired.flatMap fun m _ => compileDepSchema_paired m.1 m.2
  · exact Paired.of_no_store (by simp)

/-- A step that stores nothing. -/
def Step.Plain : Step P → Prop
  | .store _ _ => False
  | _ => True

lemma require_plain (ok : Bool) : ∀ st ∈ (require ok : List (Step P)), st.Plain := by
  cases ok <;> simp [require, Step.Plain]

lemma refSteps_plain (p : P) : ∀ st ∈ refSteps env p, st.Plain := by
  rw [refSteps]
  split <;> simp [Step.Plain]

lemma dynamicRefSteps_plain (recursive : Bool) (p : P) :
    ∀ st ∈ dynamicRefSteps env recursive p, st.Plain := by
  have href := refSteps_plain env p
  have hfail : ∀ st ∈ ([.fail] : List (Step P)), st.Plain := by simp [Step.Plain]
  rw [dynamicRefSteps]
  split
  · split
    · split_ifs
      · exact href
      · exact hfail
      · exact hfail
      · exact href
      · split
        · exact List.forall_mem_cons.mpr ⟨trivial, href⟩
        · exact href
    · exact href
  · exact hfail

lemma plain_ite {c : Prop} [Decidable c] {l l' : List (Step P)} (h : ∀ st ∈ l, st.Plain)
    (h' : ∀ st ∈ l', st.Plain) : ∀ st ∈ (if c then l else l'), st.Plain := by
  by_cases hc : c
  · rwa [if_pos hc]
  · rwa [if_neg hc]

/-- The other keywords store no dependencies. -/
lemma otherSteps_plain (k : Bytes) (p : P) : ∀ st ∈ otherSteps env k p, st.Plain := by
  have hfail : ∀ st ∈ ([.fail] : List (Step P)), st.Plain := by simp [Step.Plain]
  have hsub : ∀ st ∈ ([.sub p] : List (Step P)), st.Plain := by simp [Step.Plain]
  have hnil : ∀ st ∈ ([] : List (Step P)), st.Plain := by simp
  have hsubs : ∀ qs : List P, ∀ st ∈ qs.map Step.sub, st.Plain := by simp [Step.Plain]
  rw [otherSteps]
  refine plain_ite (require_plain _) (plain_ite (refSteps_plain env p) (plain_ite ?_ ?_))
  · split
    · exact hnil
    · exact hfail
  refine plain_ite ?_ (plain_ite ?_ ?_)
  · intro st hst
    obtain ⟨m, -, rfl⟩ := List.mem_map.mp hst
    trivial
  · intro st hst
    obtain ⟨m, -, hm⟩ := List.mem_flatMap.mp hst
    rcases List.mem_append.mp hm with hm | hm
    · exact require_plain _ st hm
    · obtain rfl := List.mem_singleton.mp hm
      trivial
  refine plain_ite (dynamicRefSteps_plain env _ p) (plain_ite (dynamicRefSteps_plain env _ p) ?_)
  refine plain_ite (plain_ite hnil hsub) (plain_ite ?_ (plain_ite (require_plain _) ?_))
  · split
    · exact require_plain _
    · exact hnil
  refine plain_ite ?_ (plain_ite ?_ (plain_ite ?_ (plain_ite ?_ (plain_ite hsub hnil))))
  · split
    · exact hsubs _
    · exact hsub
  · split
    · exact hsubs _
    · exact hnil
  · split
    · exact require_plain _
    · exact hnil
  · split
    · exact require_plain _
    · exact hfail

lemma memberSteps_paired (m : Bytes × P) : Paired (memberSteps env m) := by
  rw [memberSteps]
  split_ifs
  · exact Paired.of_no_store (by simp)
  · exact (depSteps_paired env _ _).append
      (Paired.of_no_store fun d e he => otherSteps_plain env _ _ _ he)

lemma compileSteps_paired (p : P) : Paired (compileSteps env p) := by
  rw [compileSteps]
  split
  · exact (Paired.flatMap fun m _ => memberSteps_paired env m).append
      (Paired.of_no_store (by simp))
  · exact Paired.of_no_store (by simp)

lemma storesIn_plain {d : Dep} {l : List (Step P)} (h : ∀ st ∈ l, st.Plain) :
    storesIn d l = [] := by
  rw [storesIn, List.filterMap_eq_nil_iff]
  intro st hst
  cases st with
  | store d' e => exact (h _ hst).elim
  | fail | sub | scope | grow => rfl

lemma compileDepReq_stores (d : Dep) {key : Bytes} {items : List P}
    (hfail : .fail ∉ compileDepReq env key items) :
    storesIn d (compileDepReq env key items) =
      (match d with
        | .req => (namesOf env items).map fun ns => (key, DepValue.names ns)
        | .schemas => none).toList := by
  rw [compileDepReq] at hfail ⊢
  cases hns : namesOf env items with
  | none => simp [hns] at hfail
  | some ns => cases d <;> simp [storesIn]

lemma compileDepSchema_stores (d : Dep) (m : Bytes × P) :
    storesIn d (compileDepSchema m.1 m.2) = (schemaPair d m).toList := by
  cases d <;> simp [compileDepSchema, storesIn, schemaPair]

lemma dependencySteps_stores (d : Dep) {m : Bytes × P} (hfail : .fail ∉ dependencySteps env m) :
    storesIn d (dependencySteps env m) = (dependencyPair env d m).toList := by
  have hschema := compileDepSchema_stores d m
  rw [dependencySteps] at hfail ⊢
  cases hv : env.view m.2 with
  | array items =>
    simp only [hv] at hfail ⊢
    rw [compileDepReq_stores env d hfail]
    cases d <;> simp [dependencyPair, hv]
  | object ms => cases d <;> simpa [dependencyPair, hv, schemaPair] using hschema
  | bool b => cases d <;> simpa [dependencyPair, hv, schemaPair] using hschema
  | null | number | string => simp [hv] at hfail

lemma dependentRequiredSteps_stores (d : Dep) {m : Bytes × P}
    (hfail : .fail ∉ dependentRequiredSteps env m) :
    storesIn d (dependentRequiredSteps env m) = (requiredPair env d m).toList := by
  rw [dependentRequiredSteps] at hfail ⊢
  cases hv : env.view m.2 with
  | array items =>
    simp only [hv] at hfail ⊢
    rw [compileDepReq_stores env d hfail]
    cases d <;> simp [requiredPair, hv]
  | object | bool | null | number | string => simp [hv] at hfail

lemma depSteps_stores (d : Dep) {k : Bytes} {p : P} (hfail : .fail ∉ depSteps env k p) :
    storesIn d (depSteps env k p) = keywordPairs env d k p := by
  rw [depSteps] at hfail ⊢
  rw [keywordPairs]
  split_ifs at hfail ⊢
  · refine storesIn_flatMap fun m hm => dependencySteps_stores env d fun hf => ?_
    exact hfail (List.mem_flatMap.mpr ⟨m, hm, hf⟩)
  · refine storesIn_flatMap fun m hm => dependentRequiredSteps_stores env d fun hf => ?_
    exact hfail (List.mem_flatMap.mpr ⟨m, hm, hf⟩)
  · exact storesIn_flatMap fun m _ => compileDepSchema_stores d m
  · rfl

/-- An object whose keywords are not refused stores what it declares. -/
lemma compileSteps_stores (d : Dep) {p : P} (hfail : .fail ∉ compileSteps env p) :
    storesIn d (compileSteps env p) = ownPairs env d p := by
  have hmember : ∀ m : Bytes × P, .fail ∉ memberSteps env m → storesIn d (memberSteps env m) =
      if isGated env m.1 then [] else keywordPairs env d m.1 m.2 := by
    intro m hm
    rw [memberSteps] at hm ⊢
    split_ifs at hm ⊢
    · rfl
    · rw [storesIn_append, storesIn_plain (otherSteps_plain env _ _), List.append_nil]
      exact depSteps_stores env d fun hf => hm (List.mem_append_left _ hf)
  rw [compileSteps] at hfail ⊢
  rw [ownPairs, membersAt]
  cases hv : env.view p with
  | object ms =>
    simp only [hv, List.mem_append, not_or, List.mem_flatMap, not_exists, not_and] at hfail
    have hall : ∀ m ∈ ms, .fail ∉ memberSteps env m := hfail.1
    show storesIn d (ms.flatMap (memberSteps env) ++ [.scope p]) = _
    rw [storesIn_append, storesIn_plain (l := [.scope p]) (by simp [Step.Plain]), List.append_nil]
    clear hfail hv
    induction ms with
    | nil => rfl
    | cons m ms ih =>
      rw [List.flatMap_cons, List.flatMap_cons, storesIn_append,
        hmember m (hall m List.mem_cons_self),
        ih fun m' hm' => hall m' (List.mem_cons_of_mem m hm')]
  | null | bool | number | string | array => rfl

end Keywords

/-! ## The walk -/

section Walk

variable {P : Type} [DecidableEq P] (env : CompileEnv P)

/-- A compile after some steps, without its lists. -/
def ctlRun (root : P) (n : ℕ) : Ctl P :=
  (fun c => (Ctl.step env c).2)^[n] (Ctl.enter env {} root [])

/-- The events of a kind among those of a step. -/
def ofDep (d : Dep) : Option (DepEvent P) → List (Event P (DepPair P))
  | some (d', ev) => if d' = d then [ev] else []
  | none => []

/-- What the first steps of a compile do to the lists of a kind. -/
def depEvents (root : P) (d : Dep) : ℕ → List (Event P (DepPair P))
  | 0 => []
  | n + 1 => depEvents root d n ++ ofDep d ((ctlRun env root n).step env).1

lemma compileRun_succ (root : P) (n : ℕ) :
    compileRun env root (n + 1) = (compileRun env root n).step env :=
  Function.iterate_succ_apply' _ _ _

lemma ctlRun_succ (root : P) (n : ℕ) :
    ctlRun env root (n + 1) = ((ctlRun env root n).step env).2 :=
  Function.iterate_succ_apply' _ _ _

/-- The lists have no part in where a compile goes. -/
lemma compileRun_ctl (root : P) (n : ℕ) : (compileRun env root n).ctl = ctlRun env root n := by
  induction n with
  | zero => rfl
  | succ n ih => rw [compileRun_succ, ctlRun_succ, ← ih, Compiling.step]

/-- The lists of a compile are those of a run of its events. -/
lemma compileRun_deps (root : P) (d : Dep) (n : ℕ) :
    (compileRun env root n).deps d = SharedCap.run 4 (depEvents env root d n) := by
  induction n with
  | zero => rfl
  | succ n ih =>
    rw [compileRun_succ, Compiling.step, depEvents, ← compileRun_ctl]
    show applyDep d ((compileRun env root n).deps d) _ = _
    rw [ih]
    cases ((compileRun env root n).ctl.step env).1 with
    | none => simp [applyDep, ofDep]
    | some ev =>
      obtain ⟨d', ev⟩ := ev
      by_cases hd : d' = d
      · simp [applyDep, ofDep, hd, run_append]
      · simp [applyDep, ofDep, hd]

/-- The object a frame is in the middle of. -/
def CallFrame.place : CallFrame P → Option P
  | .node p _ => some p
  | .walk _ => none

/-- How far an object is: the steps that were taken, and those to come. -/
structure Taken (c : Ctl P) (evs : Dep → List (Event P (DepPair P))) (p : P)
    (pre post : List (Step P)) : Prop where
  /-- They make up the steps of the object. -/
  steps : compileSteps env p = pre ++ post
  /-- None of them was refused. -/
  unrefused : .fail ∉ pre
  /-- The events of the object are theirs. -/
  events : ∀ d, ((evs d).filter fun ev => ev.owner = p) = eventsIn d p pre
  /-- An object on the stack waits with the steps to come. -/
  waiting : ∀ todo, .node p todo ∈ c.stack → post = todo
  /-- An object that is done has none to come. -/
  finished : p ∈ c.done → post = []
  /-- An object that was not come to has taken none. -/
  fresh : p ∉ c.memo → pre = []

/-- What every step of a compile keeps. -/
structure Progress (c : Ctl P) (evs : Dep → List (Event P (DepPair P))) : Prop where
  /-- No object is on the stack twice. -/
  nodup : (c.stack.filterMap CallFrame.place).Nodup
  /-- An object on the stack was come to and is not done. -/
  stacked : ∀ p todo, .node p todo ∈ c.stack → p ∈ c.memo ∧ p ∉ c.done
  /-- An object that is done was come to. -/
  done : ∀ p ∈ c.done, p ∈ c.memo
  /-- Every object is somewhere in its steps. -/
  taken : ∀ p, ∃ pre post, Taken env c evs p pre post
  /-- Every pair has its room asked for. -/
  asked : ∀ d, Asked (evs d)

variable {env} {c : Ctl P} {evs : Dep → List (Event P (DepPair P))}

omit [DecidableEq P] in
lemma mem_places {fs : List (CallFrame P)} {p : P} {todo : List (Step P)}
    (h : .node p todo ∈ fs) : p ∈ fs.filterMap CallFrame.place :=
  List.mem_filterMap.mpr ⟨_, h, rfl⟩

/-- Frames may go, and walks may change. -/
lemma Progress.reframe (h : Progress env c evs) {fs : List (CallFrame P)}
    (hmem : ∀ p todo, .node p todo ∈ fs → .node p todo ∈ c.stack)
    (hnodup : (fs.filterMap CallFrame.place).Nodup) : Progress env { c with stack := fs } evs where
  nodup := hnodup
  stacked p todo hp := h.stacked p todo (hmem p todo hp)
  done := h.done
  taken p := by
    obtain ⟨pre, post, ht⟩ := h.taken p
    exact ⟨pre, post, ht.steps, ht.unrefused, ht.events,
      fun todo hp => ht.waiting todo (hmem p todo hp), ht.finished, ht.fresh⟩
  asked := h.asked

omit [DecidableEq P] in
lemma unwind_suffix (fs : List (CallFrame P)) : unwind fs <:+ fs := by
  induction fs with
  | nil => exact List.suffix_rfl
  | cons f fs ih =>
    cases f with
    | node p todo => exact ih.trans (List.suffix_cons _ _)
    | walk qs => exact List.suffix_rfl

/-- The top of the stack may be left. -/
lemma Progress.leave (h : Progress env c evs) {fs : List (CallFrame P)} (hfs : fs <:+ c.stack) :
    Progress env { c with stack := fs } evs :=
  h.reframe (fun _ _ hp => hfs.subset hp) (h.nodup.sublist (hfs.sublist.filterMap _))

/-- A value is compiled. -/
lemma Progress.enter (h : Progress env c evs) (q : P) :
    Progress env (c.enter env q c.stack) evs := by
  by_cases hq : q ∈ c.memo
  · rw [Ctl.enter, if_pos hq]
    exact h
  have hoff : ∀ todo, .node q todo ∉ c.stack := fun todo hn => hq (h.stacked q todo hn).1
  rw [Ctl.enter, if_neg hq]
  cases hv : env.view q with
  | bool b =>
    refine ⟨h.nodup, ?_, ?_, ?_, h.asked⟩
    · intro p todo hp
      obtain ⟨hm, hd⟩ := h.stacked p todo hp
      refine ⟨List.mem_cons_of_mem q hm, ?_⟩
      rintro (_ | ⟨_, hd'⟩)
      · exact hoff todo hp
      · exact hd hd'
    · intro p hp
      rcases List.mem_cons.mp hp with rfl | hp
      · exact List.mem_cons_self
      · exact List.mem_cons_of_mem q (h.done p hp)
    · intro p
      obtain ⟨pre, post, ht⟩ := h.taken p
      refine ⟨pre, post, ht.steps, ht.unrefused, ht.events, ht.waiting, ?_, ?_⟩
      · intro hp
        rcases List.mem_cons.mp hp with rfl | hp
        · have hnil : pre ++ post = [] := by rw [← ht.steps, compileSteps, hv]
          exact (List.append_eq_nil_iff.mp hnil).2
        · exact ht.finished hp
      · exact fun hp => ht.fresh fun hm => hp (List.mem_cons_of_mem q hm)
  | object ms =>
    refine ⟨?_, ?_, ?_, ?_, h.asked⟩
    · refine List.nodup_cons.mpr ⟨?_, h.nodup⟩
      intro hmem
      obtain ⟨f, hf, hfq⟩ := List.mem_filterMap.mp hmem
      cases f with
      | node p todo =>
        obtain rfl : p = q := Option.some_inj.mp hfq
        exact hoff todo hf
      | walk qs => cases hfq
    · intro p todo hp
      rcases List.mem_cons.mp hp with hp | hp
      · obtain ⟨rfl, -⟩ := CallFrame.node.inj hp
        exact ⟨List.mem_cons_self, fun hd => hq (h.done p hd)⟩
      · exact ⟨List.mem_cons_of_mem q (h.stacked p todo hp).1, (h.stacked p todo hp).2⟩
    · exact fun p hp => List.mem_cons_of_mem q (h.done p hp)
    · intro p
      obtain ⟨pre, post, ht⟩ := h.taken p
      refine ⟨pre, post, ht.steps, ht.unrefused, ht.events, ?_, ht.finished, ?_⟩
      · intro todo hp
        rcases List.mem_cons.mp hp with hp | hp
        · obtain ⟨rfl, rfl⟩ := CallFrame.node.inj hp
          rw [ht.steps, ht.fresh hq, List.nil_append]
        · exact ht.waiting todo hp
      · exact fun hp => ht.fresh fun hm => hp (List.mem_cons_of_mem q hm)
  | null | number | string | array => exact h.leave (unwind_suffix _)

/-- An object takes a step that is not refused. -/
lemma Progress.advance (h : Progress env c evs) {p : P} {st : Step P} {todo : List (Step P)}
    {fs : List (CallFrame P)} (hstack : c.stack = .node p (st :: todo) :: fs) (hst : st ≠ .fail) :
    Progress env { c with stack := .node p todo :: fs }
      (fun d => evs d ++ (stepEvent d p st).toList) := by
  have hhead : CallFrame.node p (st :: todo) ∈ c.stack := by
    rw [hstack]
    exact List.mem_cons_self
  have hnodup : (p :: fs.filterMap CallFrame.place).Nodup := by
    have := h.nodup
    rwa [hstack] at this
  obtain ⟨pre, post, ht⟩ := h.taken p
  obtain rfl : post = st :: todo := ht.waiting _ hhead
  refine ⟨hnodup, ?_, h.done, ?_, ?_⟩
  · intro q todo' hq
    rcases List.mem_cons.mp hq with hq | hq
    · obtain ⟨rfl, -⟩ := CallFrame.node.inj hq
      exact h.stacked q _ hhead
    · refine h.stacked q todo' ?_
      rw [hstack]
      exact List.mem_cons_of_mem _ hq
  · intro q
    by_cases hqp : q = p
    · subst hqp
      refine ⟨pre ++ [st], todo, ?_, ?_, ?_, ?_, ?_, ?_⟩
      · rw [ht.steps, List.append_assoc, List.singleton_append]
      · simpa using ⟨ht.unrefused, hst.symm⟩
      · intro d
        rw [List.filter_append, ht.events d, eventsIn_append]
        congr 1
        have hown : (stepEvent d q st).toList.filter (fun ev => ev.owner = q) =
            (stepEvent d q st).toList := by
          rw [List.filter_eq_self]
          intro ev hev
          simpa using owner_of_stepEvent (Option.mem_toList.mp hev)
        rw [hown]
        cases hev : stepEvent d q st <;> simp [eventsIn, hev]
      · intro todo' hq
        rcases List.mem_cons.mp hq with hq | hq
        · exact (CallFrame.node.inj hq).2.symm
        · exact absurd (mem_places hq) (List.nodup_cons.mp hnodup).1
      · exact fun hd => absurd hd (h.stacked q _ hhead).2
      · exact fun hm => absurd (h.stacked q _ hhead).1 hm
    · obtain ⟨pre', post', ht'⟩ := h.taken q
      refine ⟨pre', post', ht'.steps, ht'.unrefused, ?_, ?_, ht'.finished, ht'.fresh⟩
      · intro d
        rw [List.filter_append, ht'.events d, List.append_right_eq_self, List.filter_eq_nil_iff]
        intro ev hev
        have := owner_of_stepEvent (Option.mem_toList.mp hev)
        simpa [this] using Ne.symm hqp
      · intro todo' hq
        rcases List.mem_cons.mp hq with hq | hq
        · exact absurd (CallFrame.node.inj hq).1 hqp
        · refine ht'.waiting todo' ?_
          rw [hstack]
          exact List.mem_cons_of_mem _ hq
  · intro d
    cases st with
    | fail => exact absurd rfl hst
    | sub q => simpa [stepEvent] using h.asked d
    | scope q => simpa [stepEvent] using h.asked d
    | grow d' =>
      by_cases hd : d' = d
      · simpa [stepEvent, hd] using (h.asked d).grow p
      · simpa [stepEvent, hd] using h.asked d
    | store d' e =>
      by_cases hd : d' = d
      · subst hd
        have hlast : lastOf p (evs d') = some (.grow p) := by
          rw [lastOf, ht.events d']
          exact compileSteps_paired env p pre d' e todo ht.steps p
        simpa [stepEvent] using (h.asked d').store hlast e
      · simpa [stepEvent, hd] using h.asked d

/-- An object has taken all of its steps. -/
lemma Progress.finish (h : Progress env c evs) {p : P} {fs : List (CallFrame P)}
    (hstack : c.stack = .node p [] :: fs) :
    Progress env { c with done := p :: c.done, stack := fs } evs := by
  have hhead : CallFrame.node p [] ∈ c.stack := by
    rw [hstack]
    exact List.mem_cons_self
  have hsub : ∀ f ∈ fs, f ∈ c.stack := by
    intro f hf
    rw [hstack]
    exact List.mem_cons_of_mem _ hf
  have hnodup : (p :: fs.filterMap CallFrame.place).Nodup := by
    have := h.nodup
    rwa [hstack] at this
  refine ⟨(List.nodup_cons.mp hnodup).2, ?_, ?_, ?_, h.asked⟩
  · intro q todo hq
    refine ⟨(h.stacked q todo (hsub _ hq)).1, ?_⟩
    rintro (_ | ⟨_, hd⟩)
    · exact (List.nodup_cons.mp hnodup).1 (mem_places hq)
    · exact (h.stacked q todo (hsub _ hq)).2 hd
  · intro q hq
    rcases List.mem_cons.mp hq with rfl | hq
    · exact (h.stacked q _ hhead).1
    · exact h.done q hq
  · intro q
    obtain ⟨pre, post, ht⟩ := h.taken q
    refine ⟨pre, post, ht.steps, ht.unrefused, ht.events,
      fun todo hq => ht.waiting todo (hsub _ hq), ?_, ht.fresh⟩
    intro hq
    rcases List.mem_cons.mp hq with rfl | hq
    · exact ht.waiting [] hhead
    · exact ht.finished hq

/-- The events of a step that is not refused. -/
lemma ofDep_nodeStep (c : Ctl P) (p : P) (todo : List (Step P)) (fs : List (CallFrame P)) (d : Dep)
    (st : Step P) : ofDep d (c.nodeStep env p todo fs st).1 = (stepEvent d p st).toList := by
  cases st with
  | fail | sub | scope => rfl
  | grow d' | store d' e =>
    by_cases hd : d' = d
    · simp [Ctl.nodeStep, ofDep, stepEvent, hd]
    · simp [Ctl.nodeStep, ofDep, stepEvent, hd]

/-- A step of a compile keeps its progress. -/
lemma Progress.step (h : Progress env c evs) :
    Progress env (c.step env).2 fun d => evs d ++ ofDep d (c.step env).1 := by
  have hnil : ∀ {c' : Ctl P}, Progress env c' evs →
      Progress env c' fun d => evs d ++ ofDep d none := by
    intro c' h'
    simpa [ofDep] using h'
  rw [Ctl.step]
  rcases hstack : c.stack with _ | ⟨⟨p, _ | ⟨st, todo⟩⟩ | ⟨_ | ⟨q, qs⟩⟩, fs⟩
  · exact hnil h
  · exact hnil (h.finish hstack)
  · simp only [ofDep_nodeStep]
    cases st with
    | fail =>
      refine hnil (h.leave ((unwind_suffix fs).trans ?_))
      rw [hstack]
      exact List.suffix_cons _ _
    | sub q => exact (h.advance hstack (by simp)).enter q
    | scope q =>
      refine (h.advance hstack (by simp)).reframe ?_ (h.advance hstack (by simp)).nodup
      intro p' todo' hp
      exact (List.mem_cons.mp hp).resolve_left (by simp)
    | grow d' => exact h.advance hstack (by simp)
    | store d' e => exact h.advance hstack (by simp)
  · refine hnil (h.leave ?_)
    rw [hstack]
    exact List.suffix_cons _ _
  · have hwalk : ∀ qs' : List P, Progress env { c with stack := .walk qs' :: fs } evs := by
      intro qs'
      refine h.reframe ?_ ?_
      · intro p todo hp
        rw [hstack]
        exact List.mem_cons_of_mem _ ((List.mem_cons.mp hp).resolve_left (by simp))
      · have := h.nodup
        rwa [hstack] at this
    refine hnil ?_
    show Progress env (c.walkStep env q qs fs) evs
    rw [Ctl.walkStep]
    cases env.view q with
    | object ms => exact (hwalk _).enter q
    | array items => exact hwalk _
    | null | bool | number | string => exact hwalk _

lemma progress_start (root : P) :
    Progress env (Ctl.enter env {} root []) fun _ => [] := by
  have hempty : Progress env ({} : Ctl P) fun _ => [] := by
    refine ⟨List.nodup_nil, ?_, ?_, ?_, fun _ => Asked.nil⟩
    · intro p todo hp
      cases hp
    · intro p hp
      cases hp
    · intro p
      refine ⟨[], compileSteps env p, rfl, by simp, fun _ => rfl, ?_, ?_, fun _ => rfl⟩
      · intro todo hp
        cases hp
      · intro hp
        cases hp
  exact hempty.enter root

lemma progress_run (env : CompileEnv P) (root : P) (n : ℕ) :
    Progress env (ctlRun env root n) fun d => depEvents env root d n := by
  induction n with
  | zero => exact progress_start root
  | succ n ih =>
    rw [ctlRun_succ]
    exact ih.step

/-- What was stored for an object that is done is what it declares. -/
lemma Progress.stored_done (h : Progress env c evs) {p : P} (hp : p ∈ c.done) (d : Dep) :
    stored p (evs d) = ownPairs env d p := by
  obtain ⟨pre, post, ht⟩ := h.taken p
  obtain rfl : post = [] := ht.finished hp
  have hsteps : compileSteps env p = pre := by rw [ht.steps, List.append_nil]
  rw [← compileSteps_stores env d (by rw [hsteps]; exact ht.unrefused), ← stored_eventsIn d p,
    hsteps, ← ht.events d]
  exact (stored_filter_owner p (evs d)).symm

/-- The lists of a compile are as they should be: no pair was written outside of the storage of
its list, and an object that is done has exactly the pairs it declares. -/
def ListsHold (env : CompileEnv P) (s : Compiling P) : Prop :=
  ∀ d, (s.deps d).overrun = false ∧ ∀ p ∈ s.ctl.done, (s.deps d).items p = ownPairs env d p

/-- The lists of a compile are always as they should be exactly if the pairs of a kind are all
stored for the object that was the first to ask for room for one. -/
theorem dep_lists_iff (env : CompileEnv P) (root : P) :
    (∀ n, ListsHold env (compileRun env root n)) ↔
      ∀ n d, OneOwner (depEvents env root d n) := by
  refine forall_congr' fun n => forall_congr' fun d => ?_
  have hp := progress_run env root n
  rw [compileRun_deps, compileRun_ctl, fits_iff (by decide) (hp.asked d)]
  refine and_iff_left_of_imp fun hone p hdone => ?_
  rw [items_eq (by decide) (hp.asked d) hone]
  exact hp.stored_done hdone d

/-- If no other object asks for room for a pair of a kind, all of them go to the one. -/
lemma Progress.oneOwner (h : Progress env c evs) {d : Dep} {x : P}
    (hsole : ∀ p, p ≠ x → .grow d ∉ compileSteps env p) : OneOwner (evs d) := by
  refine (h.asked d).oneOwner (x := x) ?_
  intro p hp
  by_contra hpx
  obtain ⟨pre, post, ht⟩ := h.taken p
  have hmem : .grow p ∈ eventsIn d p pre := by
    rw [← ht.events d]
    exact List.mem_filter.mpr ⟨hp, by simp [Event.owner]⟩
  obtain ⟨st, hst, hev⟩ := List.mem_filterMap.mp hmem
  cases st with
  | grow d' =>
    obtain rfl : d' = d := by
      by_contra hd
      simp [stepEvent, hd] at hev
    exact hsole p hpx (ht.steps ▸ List.mem_append_left post hst)
  | store d' e =>
    simp only [stepEvent] at hev
    split_ifs at hev
    cases hev
  | fail | sub | scope => cases hev

/-- The lists of a schema in which one object declares all the pairs of a kind are always as they
should be. -/
theorem lists_hold_of_sole {env : CompileEnv P} {sole : Dep → P}
    (hsole : ∀ d p, p ≠ sole d → .grow d ∉ compileSteps env p) (root : P) (n : ℕ) :
    ListsHold env (compileRun env root n) := by
  intro d
  have hp := progress_run env root n
  have hone := hp.oneOwner (hsole d)
  rw [compileRun_deps, compileRun_ctl]
  exact ⟨(fits_iff (by decide) (hp.asked d)).mpr hone,
    fun p hdone => (items_eq (by decide) (hp.asked d) hone p).trans (hp.stored_done hdone d)⟩

end Walk

/-! ## Two objects with dependencies -/

/-- A document that goes without references, in the dialect without a `$schema`. -/
def docEnv (root : Jv) : CompileEnv (List ℕ) where
  view := docView root
  vocabMask := 31
  dialectDeclared := false
  target := fun _ => none
  resourceRoot := fun _ => []
  isIntegral := fun _ => true
  isPositive := fun _ => true
  regexOk := fun _ => true

/-- Two schemas that both declare a pair, side by side. -/
def twoOwnersText : Bytes :=
  ascii ("\x7b\"allOf\":[\x7b\"dependentRequired\":\x7b\"a\":[\"b\"]\x7d\x7d," ++
    "\x7b\"dependentRequired\":\x7b\"c\":[\"d\"]\x7d\x7d]\x7d")

/-- The second of them has no storage. -/
theorem twoOwners_overrun :
    ¬ ∀ root, jsonRead (fun _ => ⟨0⟩) twoOwnersText = .ok root →
      ∀ n, ListsHold (docEnv root) (compileRun (docEnv root) [] n) := by
  intro h
  have hover : (match jsonRead (fun _ => ⟨0⟩) twoOwnersText with
      | .ok root => ((compileRun (docEnv root) [] 40).deps .req).overrun
      | .error _ => false) = true := by
    decide +kernel
  cases hroot : jsonRead (fun _ => ⟨0⟩) twoOwnersText with
  | error f =>
    rw [hroot] at hover
    cases hover
  | ok root =>
    simp only [hroot, (h root hroot 40 .req).1, Bool.false_eq_true] at hover

end Teptris
