import Teptris.Schema.Compile
import Teptris.Schema.GraphWalk

/-!
# Self scopes

`attach_self_scope` lists the anchors of a schema object's subtree.  It collects them on an
accumulator that is shared with every walk still going on: an object that was not compiled yet is
compiled on the way, and so are the resources in which a `$dynamicRef` looks for its anchor.  The
machine of this compile is followed here with its anchors and the accumulator.  The lists are
right as long as a walk finds the anchors of every object recorded and none of the lookups leaves
its finds behind (`selfScope_sound`); a lookup that succeeds does leave them
(`selfScope_twice`).
-/

namespace Teptris

/-! ## Anchors -/

/-- `dynamic_anchor`, and whether `recursive_anchor` is set. -/
structure Anchors where
  /-- `dynamic_anchor`. -/
  dynamic : Option Bytes := none
  /-- `recursive_anchor` is set. -/
  recursive : Bool := false

/-- The name of an entry, where there is one. -/
def Anchors.name (a : Anchors) : Option Bytes :=
  if a.dynamic.isSome ∨ a.recursive = true then some (a.dynamic.getD []) else none

/-- What a compile is given, with the resource of every object. -/
structure ScopeEnv (P : Type) extends CompileEnv P where
  /-- `res_id`. -/
  resId : P → ℕ

/-- What compiling a keyword comes to, as far as scopes are concerned. -/
inductive ScopeStep (P : Type) where
  /-- The keyword is refused. -/
  | fail
  /-- The value at a place is compiled. -/
  | sub (q : P)
  /-- `resource_local_anchor` looks for a name in a resource, and where there is none the table of
  the document has a target or not. -/
  | lookup (root : P) (name : Bytes) (fallback : Option P)
  /-- `n->dynamic_anchor` is set. -/
  | dynamicAnchor (name : Bytes)
  /-- `n->recursive_anchor` is set. -/
  | recursiveAnchor

/-- The steps of other keywords. -/
def Step.scoped {P : Type} : Step P → Option (ScopeStep P)
  | .fail => some .fail
  | .sub q => some (.sub q)
  | _ => none

/-- What a step records. -/
def Anchors.record {P : Type} (a : Anchors) : ScopeStep P → Anchors
  | .dynamicAnchor name => { a with dynamic := some name }
  | .recursiveAnchor => { a with recursive := true }
  | _ => a

section Keywords

variable {P : Type} (env : ScopeEnv P)

/-- The name a plain-name `$dynamicRef` looks for. -/
def localName (m : Bytes × P) : Option Bytes :=
  if m.1 = ascii "$dynamicRef" then
    match env.view m.2 with
    | .string s =>
      match cstr s with
      | 0x23 :: name => if name = [] ∨ 0x2F ∈ name then none else some name
      | _ => none
    | _ => none
  else none

/-- The anchor a member declares. -/
def anchorStep (m : Bytes × P) : Option (ScopeStep P) :=
  if m.1 = ascii "$dynamicAnchor" then
    match env.view m.2 with
    | .string s => some (.dynamicAnchor (cstr s))
    | _ => none
  else if m.1 = ascii "$recursiveAnchor" then
    match env.view m.2 with
    | .bool true => some .recursiveAnchor
    | _ => none
  else none

/-- A member of a schema object. -/
def scopeSteps (m : Bytes × P) : List (ScopeStep P) :=
  match localName env m with
  | some name => [.lookup (env.resourceRoot m.2) name (env.target m.2)]
  | none => (memberSteps env.toCompileEnv m).filterMap Step.scoped ++ (anchorStep env m).toList

/-- The anchors an object declares. -/
def declaredAnchors (q : P) : Anchors :=
  ((membersAt env.toCompileEnv q).filterMap (anchorStep env)).foldl Anchors.record {}

/-- The entry of an object with some anchors. -/
def scopeEntry (q : P) (a : Anchors) : Option (DynAnchor P) :=
  a.name.map fun name => ⟨name, q, env.resId q⟩

/-- The anchors that the objects of some values and of their subtrees declare, in document
order. -/
inductive DeclaredBelow : List P → List (DynAnchor P) → Prop
  /-- No value is left. -/
  | nil : DeclaredBelow [] []
  /-- An object comes before its members. -/
  | object {q : P} {ms : List (Bytes × P)} {qs : List P} {l : List (DynAnchor P)}
      (hq : env.view q = .object ms) (h : DeclaredBelow (ms.map (·.2) ++ qs) l) :
      DeclaredBelow (q :: qs) ((scopeEntry env q (declaredAnchors env q)).toList ++ l)
  /-- The items of an array. -/
  | array {q : P} {items qs : List P} {l : List (DynAnchor P)} (hq : env.view q = .array items)
      (h : DeclaredBelow (items ++ qs) l) : DeclaredBelow (q :: qs) l
  /-- Another value. -/
  | leaf {q : P} {qs : List P} {l : List (DynAnchor P)} (hobject : ∀ ms, env.view q ≠ .object ms)
      (harray : ∀ items, env.view q ≠ .array items) (h : DeclaredBelow qs l) :
      DeclaredBelow (q :: qs) l

end Keywords

/-! ## The walk -/

/-- What a `build_self_scope` is called for. -/
inductive WalkFor (P : Type) where
  /-- `attach_self_scope`. -/
  | attach (owner : P)
  /-- `resource_local_anchor`. -/
  | lookup (name : Bytes) (fallback : Option P)

/-- What the C stack holds. -/
inductive ScopeFrame (P : Type) where
  /-- A `sch_compile_node`, with the steps to come. -/
  | node (p : P) (todo : List (ScopeStep P))
  /-- A `build_self_scope` with its `base`, the object whose node it has asked for and whether it
  was given one, and the values to come. -/
  | walk (goal : WalkFor P) (base : ℕ) (held : Option (P × Bool)) (todo : List P)

/-- Where a compile stands, with the anchors. -/
structure Scoping (P : Type) where
  /-- `memo`. -/
  memo : List P := []
  /-- The objects that were compiled to their ends. -/
  done : List P := []
  /-- The anchors recorded in the nodes. -/
  anchors : P → Anchors := fun _ => {}
  /-- `entry_acc`. -/
  acc : List (DynAnchor P) := []
  /-- `self_scope` of the nodes. -/
  selfScope : P → List (DynAnchor P) := fun _ => []
  /-- The C stack. -/
  stack : List (ScopeFrame P) := []

/-- A refused value fails what waits for it, up to a `build_self_scope`, which goes on without the
node it has asked for. -/
def failBack {P : Type} : List (ScopeFrame P) → List (ScopeFrame P)
  | [] => []
  | .node _ _ :: fs => failBack fs
  | .walk goal base held todo :: fs => .walk goal base (held.map fun h => (h.1, false)) todo :: fs

/-- No `attach_self_scope` is going on. -/
def attachFree {P : Type} (fs : List (ScopeFrame P)) : Bool :=
  fs.all fun
    | .walk (.attach _) _ _ _ => false
    | _ => true

section Walk

variable {P : Type} [DecidableEq P] (env : ScopeEnv P)

/-- `sch_compile_node` is called, with the stack below it. -/
def Scoping.enter (c : Scoping P) (q : P) (below : List (ScopeFrame P)) : Scoping P :=
  if q ∈ c.memo then { c with stack := below }
  else
    match env.view q with
    | .bool _ => { c with memo := q :: c.memo, stack := below }
    | .object ms => { c with
        memo := q :: c.memo
        stack := .node q (ms.flatMap (scopeSteps env)) :: below }
    | _ => { c with stack := failBack below }

/-- A reference is compiled where it leads somewhere. -/
def Scoping.follow (c : Scoping P) (target : Option P) (below : List (ScopeFrame P)) : Scoping P :=
  match target with
  | some q => c.enter env q below
  | none => { c with stack := failBack below }

/-- A step of a schema object. -/
def Scoping.nodeStep (c : Scoping P) (p : P) (todo : List (ScopeStep P)) (fs : List (ScopeFrame P))
    (st : ScopeStep P) : Scoping P :=
  match st with
  | .fail => { c with stack := failBack fs }
  | .sub q => c.enter env q (.node p todo :: fs)
  | .lookup root name fallback =>
    match env.view root with
    | .object _ => { c with
        stack := .walk (.lookup name fallback) c.acc.length none [root] :: .node p todo :: fs }
    | _ => c.follow env fallback (.node p todo :: fs)
  | st => { c with
      anchors := fun q => if q = p then (c.anchors p).record st else c.anchors q
      stack := .node p todo :: fs }

/-- What `build_self_scope` sees of the node of an object: its anchors as they are recorded so
far, and none where there is no node. -/
def Scoping.seen (c : Scoping P) (q : P) (ok : Bool) : Anchors := if ok then c.anchors q else {}

/-- A value of `build_self_scope`. -/
def Scoping.walkStep (c : Scoping P) (goal : WalkFor P) (base : ℕ) (q : P) (qs : List P)
    (fs : List (ScopeFrame P)) : Scoping P :=
  match env.view q with
  | .object ms => c.enter env q (.walk goal base (some (q, true)) (ms.map (·.2) ++ qs) :: fs)
  | .array items => { c with stack := .walk goal base none (items ++ qs) :: fs }
  | _ => { c with stack := .walk goal base none qs :: fs }

/-- A `build_self_scope` returns. -/
def Scoping.finish (c : Scoping P) (base : ℕ) (fs : List (ScopeFrame P)) :
    WalkFor P → Scoping P
  | .attach owner =>
    let mine := c.acc.drop base
    if mine.isEmpty then { c with done := owner :: c.done, stack := fs }
    else { c with
      done := owner :: c.done
      selfScope := fun q => if q = owner then mine else c.selfScope q
      acc := c.acc.take base
      stack := fs }
  | .lookup name fallback =>
    match (c.acc.drop base).find? (·.name == name) with
    -- the source returns here with the accumulator as it is
    | some e => c.enter env e.node fs
    | none => { c with acc := c.acc.take base }.follow env fallback fs

/-- A step of a compile. -/
def Scoping.step (c : Scoping P) : Scoping P :=
  match c.stack with
  | [] => c
  | .node p [] :: fs => { c with stack := .walk (.attach p) c.acc.length none [p] :: fs }
  | .node p (st :: todo) :: fs => c.nodeStep env p todo fs st
  | .walk goal base (some (q, ok)) todo :: fs => { c with
      acc := c.acc ++ (scopeEntry env q (c.seen q ok)).toList
      stack := .walk goal base none todo :: fs }
  | .walk goal base none (q :: qs) :: fs => c.walkStep env goal base q qs fs
  | .walk goal base none [] :: fs => c.finish env base fs goal

/-- A compile of the schema at a place, after some steps. -/
def scopeRun (root : P) (n : ℕ) : Scoping P :=
  (Scoping.step env)^[n] (Scoping.enter env {} root [])

/-- The step to come leaves the lists alone: a walk for a list sees all the anchors of the object
it has asked for, and no lookup that found its name returns while such a walk is going on. -/
def Scoping.clean (c : Scoping P) : Bool :=
  match c.stack with
  | .walk (.attach _) _ (some (q, ok)) _ :: _ =>
    (c.seen q ok).name = (declaredAnchors env q).name
  | .walk (.lookup name _) base none [] :: fs =>
    !(c.acc.drop base).any (·.name == name) || attachFree fs
  | _ => true

end Walk

/-! ## The accumulator -/

section Accumulator

variable {P : Type} {env : ScopeEnv P}

/-- What a walk will put on the accumulator for the object it has asked for. -/
def promised (env : ScopeEnv P) (held : Option (P × Bool)) : List (DynAnchor P) :=
  (held.bind fun h => scopeEntry env h.1 (declaredAnchors env h.1)).toList

/-- The finds of a walk lie on the accumulator from its base on, below those of the walk above it,
which begin at `n`.  A walk for a list has found what the values behind it declare. -/
def Segments (env : ScopeEnv P) (acc : List (DynAnchor P)) : ℕ → List (ScopeFrame P) → Prop
  | _, [] => True
  | n, .node _ _ :: fs => Segments env acc n fs
  | n, .walk goal base held todo :: fs =>
    base ≤ n ∧ (∀ owner, goal = .attach owner → ∀ l, DeclaredBelow env todo l →
      DeclaredBelow env [owner] ((acc.take n).drop base ++ promised env held ++ l)) ∧
        Segments env acc base fs

variable {acc acc' : List (DynAnchor P)} {fs : List (ScopeFrame P)}

/-- What lies above does not matter. -/
lemma segments_congr {n : ℕ} (hacc : acc.take n = acc'.take n) (h : Segments env acc n fs) :
    Segments env acc' n fs := by
  induction fs generalizing n with
  | nil => trivial
  | cons f fs ih =>
    cases f with
    | node p todo => exact ih hacc h
    | walk goal base held todo =>
      obtain ⟨hle, hfound, hbelow⟩ := h
      refine ⟨hle, ?_, ih ?_ hbelow⟩
      · rw [← hacc]
        exact hfound
      · have htake := congrArg (List.take base) hacc
        rwa [List.take_take, List.take_take, Nat.min_eq_left hle] at htake

lemma segments_failBack {n : ℕ} (h : Segments env acc n fs) :
    Segments env acc n (failBack fs) := by
  induction fs with
  | nil => trivial
  | cons f fs ih =>
    cases f with
    | node p todo => exact ih h
    | walk goal base held todo =>
      obtain ⟨hle, hfound, hbelow⟩ := h
      refine ⟨hle, ?_, hbelow⟩
      have hheld : promised env (held.map fun h => (h.1, false)) = promised env held := by
        cases held <;> rfl
      rw [hheld]
      exact hfound

/-- Where no list is being made, finds may be left behind. -/
lemma segments_leave {n m : ℕ} (hle : n ≤ m) (hfree : attachFree fs = true)
    (h : Segments env acc n fs) : Segments env acc m fs := by
  induction fs with
  | nil => trivial
  | cons f fs ih =>
    rw [attachFree, List.all_cons, Bool.and_eq_true] at hfree
    cases f with
    | node p todo => exact ih hfree.2 h
    | walk goal base held todo =>
      obtain ⟨hbase, -, hbelow⟩ := h
      refine ⟨Nat.le_trans hbase hle, ?_, hbelow⟩
      rintro owner rfl
      cases hfree.1

end Accumulator

/-! ## Runs -/

section Runs

variable {P : Type} [DecidableEq P] {env : ScopeEnv P} {c : Scoping P}

/-- The lists that are attached are right, and those that are made will be. -/
structure ScopesHold (env : ScopeEnv P) (c : Scoping P) : Prop where
  /-- The accumulator. -/
  segments : Segments env c.acc c.acc.length c.stack
  /-- A list that is attached holds the anchors of the subtree. -/
  listed : ∀ p ∈ c.done, DeclaredBelow env [p] (c.selfScope p)
  /-- No other node has one. -/
  unlisted : ∀ p ∉ c.done, c.selfScope p = []

omit [DecidableEq P] in
lemma ScopesHold.restack (h : ScopesHold env c) {fs : List (ScopeFrame P)}
    (hfs : Segments env c.acc c.acc.length fs) : ScopesHold env { c with stack := fs } :=
  ⟨hfs, h.listed, h.unlisted⟩

lemma ScopesHold.enter (h : ScopesHold env c) (q : P) {below : List (ScopeFrame P)}
    (hbelow : Segments env c.acc c.acc.length below) : ScopesHold env (c.enter env q below) := by
  unfold Scoping.enter
  split_ifs
  · exact h.restack hbelow
  · split
    · exact ⟨hbelow, h.listed, h.unlisted⟩
    · exact ⟨hbelow, h.listed, h.unlisted⟩
    · exact h.restack (segments_failBack hbelow)

lemma ScopesHold.follow (h : ScopesHold env c) (target : Option P) {below : List (ScopeFrame P)}
    (hbelow : Segments env c.acc c.acc.length below) :
    ScopesHold env (c.follow env target below) := by
  cases target with
  | none => exact h.restack (segments_failBack hbelow)
  | some q => exact h.enter q hbelow

omit [DecidableEq P] in
/-- The entries from the base on are taken off. -/
lemma ScopesHold.handBack (h : ScopesHold env c) {base : ℕ} {fs : List (ScopeFrame P)}
    (hle : base ≤ c.acc.length) (hfs : Segments env c.acc base fs) :
    ScopesHold env { c with acc := c.acc.take base, stack := fs } := by
  refine ⟨?_, h.listed, h.unlisted⟩
  have hlen : (c.acc.take base).length = base := List.length_take_of_le hle
  change Segments env (c.acc.take base) (c.acc.take base).length fs
  rw [hlen]
  exact segments_congr (by rw [List.take_take, Nat.min_self]) hfs

/-- A step of a schema object. -/
lemma ScopesHold.nodeStep (h : ScopesHold env c) {p : P} {todo : List (ScopeStep P)}
    {fs : List (ScopeFrame P)} (hfs : Segments env c.acc c.acc.length fs) (st : ScopeStep P) :
    ScopesHold env (c.nodeStep env p todo fs st) := by
  cases st with
  | fail => exact h.restack (segments_failBack hfs)
  | sub q => exact h.enter q hfs
  | lookup root name fallback =>
    unfold Scoping.nodeStep
    simp only
    split
    · refine h.restack ⟨Nat.le_refl _, ?_, hfs⟩
      intro owner hgoal
      cases hgoal
    · exact h.follow fallback hfs
  | dynamicAnchor name => exact ⟨hfs, h.listed, h.unlisted⟩
  | recursiveAnchor => exact ⟨hfs, h.listed, h.unlisted⟩

/-- A value of a walk. -/
lemma ScopesHold.walkStep (h : ScopesHold env c) {goal : WalkFor P} {base : ℕ} {q : P}
    {qs : List P} {fs : List (ScopeFrame P)}
    (hs : Segments env c.acc c.acc.length (.walk goal base none (q :: qs) :: fs)) :
    ScopesHold env (c.walkStep env goal base q qs fs) := by
  obtain ⟨hle, hfound, hbelow⟩ := hs
  unfold Scoping.walkStep
  cases hq : env.view q with
  | object ms =>
    refine h.enter q ⟨hle, ?_, hbelow⟩
    intro owner hgoal l hl
    have hnext := hfound owner hgoal _ (.object hq hl)
    simp only [promised, Option.bind_none, Option.toList_none, List.append_nil] at hnext
    rw [promised, List.append_assoc]
    exact hnext
  | array items =>
    refine h.restack ⟨hle, ?_, hbelow⟩
    exact fun owner hgoal l hl => hfound owner hgoal l (.array hq hl)
  | null | bool | number | string =>
    refine h.restack ⟨hle, ?_, hbelow⟩
    exact fun owner hgoal l hl =>
      hfound owner hgoal l (.leaf (by simp [hq]) (by simp [hq]) hl)

omit [DecidableEq P] in
/-- The node a walk has asked for. -/
lemma ScopesHold.push (h : ScopesHold env c) {goal : WalkFor P} {base : ℕ} {q : P} {ok : Bool}
    {todo : List P} {fs : List (ScopeFrame P)}
    (hs : Segments env c.acc c.acc.length (.walk goal base (some (q, ok)) todo :: fs))
    (hseen : ∀ owner, goal = .attach owner →
      (c.seen q ok).name = (declaredAnchors env q).name) :
    ScopesHold env { c with
      acc := c.acc ++ (scopeEntry env q (c.seen q ok)).toList
      stack := .walk goal base none todo :: fs } := by
  obtain ⟨hle, hfound, hbelow⟩ := hs
  refine ⟨⟨?_, ?_, ?_⟩, h.listed, h.unlisted⟩
  · rw [List.length_append]
    exact Nat.le_trans hle (Nat.le_add_right _ _)
  · intro owner hgoal l hl
    have hentry : scopeEntry env q (c.seen q ok) = scopeEntry env q (declaredAnchors env q) := by
      rw [scopeEntry, scopeEntry, hseen owner hgoal]
    have hnext := hfound owner hgoal l hl
    rw [List.take_length] at hnext
    rw [List.take_length, List.drop_append_of_le_length hle, hentry, promised, Option.bind_none,
      Option.toList_none, List.append_nil]
    exact hnext
  · exact segments_congr (List.take_append_of_le_length hle).symm hbelow

/-- The end of a walk. -/
lemma ScopesHold.finish (h : ScopesHold env c) {goal : WalkFor P} {base : ℕ}
    {fs : List (ScopeFrame P)}
    (hs : Segments env c.acc c.acc.length (.walk goal base none [] :: fs))
    (hleft : ∀ name fallback, goal = .lookup name fallback →
      ((c.acc.drop base).any (·.name == name)) = true → attachFree fs = true) :
    ScopesHold env (c.finish env base fs goal) := by
  obtain ⟨hle, hfound, hbelow⟩ := hs
  cases goal with
  | attach owner =>
    have hmine := hfound owner rfl [] .nil
    rw [List.take_length, promised, Option.bind_none, Option.toList_none, List.append_nil,
      List.append_nil] at hmine
    unfold Scoping.finish
    simp only
    by_cases hnone : (c.acc.drop base).isEmpty = true
    · rw [if_pos hnone]
      have hnil := List.isEmpty_iff.mp hnone
      have hlen : base = c.acc.length := Nat.le_antisymm hle (List.drop_eq_nil_iff.mp hnil)
      rw [hlen] at hbelow
      refine ⟨hbelow, ?_, fun p hp => h.unlisted p fun hd => hp (List.mem_cons_of_mem owner hd)⟩
      intro p hp
      by_cases hdone : p ∈ c.done
      · exact h.listed p hdone
      · obtain rfl : p = owner := (List.mem_cons.mp hp).resolve_right hdone
        rw [hnil] at hmine
        rw [h.unlisted p hdone]
        exact hmine
    · rw [if_neg hnone]
      have hback := h.handBack hle hbelow
      refine ⟨hback.segments, ?_, ?_⟩
      · intro p hp
        change DeclaredBelow env [p] (if p = owner then c.acc.drop base else c.selfScope p)
        split_ifs with hpo
        · rw [hpo]
          exact hmine
        · exact h.listed p ((List.mem_cons.mp hp).resolve_left hpo)
      · intro p hp
        have hpo : ¬ p = owner := fun heq => hp (heq ▸ List.mem_cons_self)
        change (if p = owner then c.acc.drop base else c.selfScope p) = []
        rw [if_neg hpo]
        exact h.unlisted p fun hd => hp (List.mem_cons_of_mem owner hd)
  | lookup name fallback =>
    unfold Scoping.finish
    simp only
    cases hfind : (c.acc.drop base).find? (·.name == name) with
    | some e =>
      have hname := List.find?_some hfind
      have hany : ((c.acc.drop base).any (·.name == name)) = true :=
        List.any_eq_true.mpr ⟨e, List.mem_of_find?_eq_some hfind, hname⟩
      exact h.enter e.node (segments_leave hle (hleft name fallback rfl hany) hbelow)
    | none =>
      have hback := h.handBack hle hbelow
      exact hback.follow fallback hback.segments

/-- A clean step keeps the lists right. -/
lemma ScopesHold.step (h : ScopesHold env c) (hclean : c.clean env = true) :
    ScopesHold env (c.step env) := by
  have hsegments := h.segments
  unfold Scoping.step
  unfold Scoping.clean at hclean
  cases hs : c.stack with
  | nil => exact h
  | cons f fs =>
    rw [hs] at hsegments hclean
    cases f with
    | node p todo =>
      cases todo with
      | nil =>
        refine h.restack ⟨Nat.le_refl _, ?_, hsegments⟩
        intro owner hgoal l hl
        obtain rfl := WalkFor.attach.inj hgoal
        rw [List.take_length, List.drop_length]
        exact hl
      | cons st todo =>
        have hfs : Segments env c.acc c.acc.length fs := hsegments
        exact h.nodeStep hfs st
    | walk goal base held todo =>
      cases held with
      | some held =>
        obtain ⟨q, ok⟩ := held
        refine h.push hsegments ?_
        rintro owner rfl
        exact of_decide_eq_true hclean
      | none =>
        cases todo with
        | cons q qs => exact h.walkStep hsegments
        | nil =>
          refine h.finish hsegments ?_
          rintro name fallback rfl hany
          simpa [hany] using hclean

lemma scopeRun_succ (env : ScopeEnv P) (root : P) (n : ℕ) :
    scopeRun env root (n + 1) = (scopeRun env root n).step env :=
  Function.iterate_succ_apply' _ _ _

lemma scopesHold_run (env : ScopeEnv P) (root : P) (n : ℕ)
    (hclean : ∀ i < n, (scopeRun env root i).clean env = true) :
    ScopesHold env (scopeRun env root n) := by
  induction n with
  | zero =>
    have hnew : ScopesHold env ({} : Scoping P) :=
      ⟨trivial, fun p hp => absurd hp List.not_mem_nil, fun p _ => rfl⟩
    exact hnew.enter root trivial
  | succ n ih =>
    rw [scopeRun_succ]
    exact (ih fun i hi => hclean i (Nat.lt_succ_of_lt hi)).step (hclean n (Nat.lt_succ_self n))

/-- In a compile whose steps are all clean, the list attached to every object that was compiled
holds the anchors declared by the objects of its subtree, in document order. -/
theorem selfScope_sound (env : ScopeEnv P) (root : P) (n : ℕ)
    (hclean : ∀ i < n, (scopeRun env root i).clean env = true) :
    ∀ p ∈ (scopeRun env root n).done,
      DeclaredBelow env [p] ((scopeRun env root n).selfScope p) :=
  (scopesHold_run env root n hclean).listed

end Runs

/-! ## Documents -/

mutual

/-- The places of a value and of what it holds, in document order. -/
def placesIn : Jv → List (List ℕ)
  | .array vs => [] :: itemPlaces 0 vs
  | .object ms => [] :: memberPlaces 0 ms
  | .null | .bool _ | .number _ | .string _ => [[]]

/-- The items of an array from the `i`-th on. -/
def itemPlaces (i : ℕ) : List Jv → List (List ℕ)
  | [] => []
  | v :: vs => (placesIn v).map (i :: ·) ++ itemPlaces (i + 1) vs

/-- The members of an object from the `i`-th on. -/
def memberPlaces (i : ℕ) : List (Bytes × Jv) → List (List ℕ)
  | [] => []
  | (_, v) :: ms => (placesIn v).map (i :: ·) ++ memberPlaces (i + 1) ms

end

/-- Places below the `i`-th part and places below later parts. -/
lemma nodup_beside {i : ℕ} {l l' : List (List ℕ)} (hl : l.Nodup)
    (hl' : l'.Nodup ∧ ∀ q ∈ l', ∃ j t, q = j :: t ∧ i + 1 ≤ j) :
    (l.map (i :: ·) ++ l').Nodup ∧
      ∀ q ∈ l.map (i :: ·) ++ l', ∃ j t, q = j :: t ∧ i ≤ j := by
  obtain ⟨hnodup, hhead⟩ := hl'
  constructor
  · refine List.Nodup.append (hl.map fun t t' h => (List.cons.inj h).2) hnodup ?_
    intro q hq hq'
    obtain ⟨t, -, rfl⟩ := List.mem_map.mp hq
    obtain ⟨j, t', heq, hj⟩ := hhead _ hq'
    obtain ⟨rfl, -⟩ := List.cons.inj heq
    omega
  · intro q hq
    rcases List.mem_append.mp hq with hq | hq
    · obtain ⟨t, -, rfl⟩ := List.mem_map.mp hq
      exact ⟨i, t, rfl, Nat.le_refl _⟩
    · obtain ⟨j, t, rfl, hj⟩ := hhead q hq
      exact ⟨j, t, rfl, Nat.le_of_succ_le hj⟩

/-- The entries of the objects at some places below another one. -/
def scopeEntries (env : ScopeEnv (List ℕ)) (p : List ℕ) (places : List (List ℕ)) :
    List (DynAnchor (List ℕ)) :=
  places.filterMap fun q => scopeEntry env (p ++ q) (declaredAnchors env (p ++ q))

section Documents

variable {env : ScopeEnv (List ℕ)}

lemma scopeEntries_append (p : List ℕ) (l l' : List (List ℕ)) :
    scopeEntries env p (l ++ l') = scopeEntries env p l ++ scopeEntries env p l' :=
  List.filterMap_append

lemma scopeEntries_map (p : List ℕ) (i : ℕ) (l : List (List ℕ)) :
    scopeEntries env p (l.map (i :: ·)) = scopeEntries env (p ++ [i]) l := by
  unfold scopeEntries
  rw [List.filterMap_map]
  refine List.filterMap_congr fun q _ => ?_
  simp

lemma scopeEntries_self (p : List ℕ) :
    scopeEntries env p [[]] = (scopeEntry env p (declaredAnchors env p)).toList := by
  simp only [scopeEntries, List.filterMap_cons, List.filterMap_nil, List.append_nil]
  cases scopeEntry env p (declaredAnchors env p) <;> rfl

/-- A value that is no object declares nothing. -/
lemma scopeEntries_leaf {p : List ℕ} (h : ∀ ms, env.view p ≠ .object ms) :
    scopeEntries env p [[]] = [] := by
  have hnone : membersAt env.toCompileEnv p = [] := by
    unfold membersAt
    split
    · rename_i ms hms
      exact absurd hms (h ms)
    · rfl
  simp [scopeEntries_self, scopeEntry, declaredAnchors, hnone, Anchors.name]

lemma jvAt_append (p q : List ℕ) (v : Jv) : jvAt (p ++ q) v = (jvAt p v).bind (jvAt q) := by
  induction p generalizing v with
  | nil => rfl
  | cons i p ih =>
    cases v with
    | array vs =>
      simp only [List.cons_append, jvAt]
      cases vs[i]? with
      | none => rfl
      | some w => exact ih w
    | object ms =>
      simp only [List.cons_append, jvAt]
      cases ms[i]? with
      | none => rfl
      | some m => exact ih m.2
    | null | bool | number | string => rfl

variable {root : Jv}

mutual

/-- What a value of a document declares, with what the values behind it do. -/
lemma declaredBelow_value (hview : env.view = docView root) : ∀ (v : Jv) (p : List ℕ)
    (qs : List (List ℕ)) (l : List (DynAnchor (List ℕ))), jvAt p root = some v →
      DeclaredBelow env qs l → DeclaredBelow env (p :: qs) (scopeEntries env p (placesIn v) ++ l)
  | .array vs, p, qs, l, hv, h => by
    have harray : env.view p = .array ((List.range vs.length).map fun i => p ++ [i]) := by
      rw [hview, docView, hv]
    have hitems := declaredBelow_items hview vs 0 p qs l
      (fun i => by simp [jvAt_append, hv, jvAt]) h
    have hself : scopeEntries env p (placesIn (.array vs)) =
        scopeEntries env p (itemPlaces 0 vs) := by
      rw [placesIn, ← List.singleton_append, scopeEntries_append,
        scopeEntries_leaf (by simp [harray]), List.nil_append]
    rw [hself]
    refine .array harray ?_
    rw [List.range_eq_range']
    exact hitems
  | .object ms, p, qs, l, hv, h => by
    have hobject : env.view p = .object (ms.zipIdx.map fun m => (m.1.1, p ++ [m.2])) := by
      rw [hview, docView, hv]
    have hmembers := declaredBelow_members hview ms 0 p qs l
      (fun i => by simp [jvAt_append, hv, jvAt, Option.map_eq_bind]) h
    have hself : scopeEntries env p (placesIn (.object ms)) =
        (scopeEntry env p (declaredAnchors env p)).toList ++
          scopeEntries env p (memberPlaces 0 ms) := by
      rw [placesIn, ← List.singleton_append, scopeEntries_append, scopeEntries_self]
    rw [hself, List.append_assoc]
    refine .object hobject ?_
    rw [List.map_map]
    exact hmembers
  | .null, p, qs, l, hv, h | .bool _, p, qs, l, hv, h | .number _, p, qs, l, hv, h
  | .string _, p, qs, l, hv, h => by
    have hshape : (∀ ms, env.view p ≠ .object ms) ∧ ∀ items, env.view p ≠ .array items := by
      rw [hview, docView, hv]
      simp
    rw [placesIn, scopeEntries_leaf hshape.1, List.nil_append]
    exact .leaf hshape.1 hshape.2 h

/-- The items of an array from the `i`-th on. -/
lemma declaredBelow_items (hview : env.view = docView root) : ∀ (vs : List Jv) (i : ℕ)
    (p : List ℕ) (qs : List (List ℕ)) (l : List (DynAnchor (List ℕ))),
      (∀ j, jvAt (p ++ [i + j]) root = vs[j]?) →
      DeclaredBelow env qs l →
        DeclaredBelow env ((List.range' i vs.length).map (fun j => p ++ [j]) ++ qs)
          (scopeEntries env p (itemPlaces i vs) ++ l)
  | [], i, p, qs, l, _, h => by
    rw [itemPlaces]
    exact h
  | v :: vs, i, p, qs, l, hv, h => by
    have hrest := declaredBelow_items hview vs (i + 1) p qs l
      (fun j => by rw [Nat.add_right_comm, Nat.add_assoc, hv]; rfl) h
    have hfirst := declaredBelow_value hview v (p ++ [i]) _ _ (hv 0) hrest
    rw [itemPlaces, scopeEntries_append, scopeEntries_map, List.append_assoc]
    exact hfirst

/-- The members of an object from the `i`-th on. -/
lemma declaredBelow_members (hview : env.view = docView root) : ∀ (ms : List (Bytes × Jv)) (i : ℕ)
    (p : List ℕ) (qs : List (List ℕ)) (l : List (DynAnchor (List ℕ))),
      (∀ j, jvAt (p ++ [i + j]) root = (ms[j]?).map (·.2)) → DeclaredBelow env qs l →
        DeclaredBelow env ((ms.zipIdx i).map (fun m => p ++ [m.2]) ++ qs)
          (scopeEntries env p (memberPlaces i ms) ++ l)
  | [], i, p, qs, l, _, h => by
    rw [memberPlaces]
    exact h
  | (k, v) :: ms, i, p, qs, l, hv, h => by
    have hrest := declaredBelow_members hview ms (i + 1) p qs l
      (fun j => by rw [Nat.add_right_comm, Nat.add_assoc, hv]; rfl) h
    have hfirst := declaredBelow_value hview v (p ++ [i]) _ _ (hv 0) hrest
    rw [memberPlaces, scopeEntries_append, scopeEntries_map, List.append_assoc]
    exact hfirst

end

/-- What values declare is one list. -/
lemma declaredBelow_unique {P : Type} {env : ScopeEnv P} {qs : List P} {l l' : List (DynAnchor P)}
    (h : DeclaredBelow env qs l) (h' : DeclaredBelow env qs l') : l = l' := by
  induction h generalizing l' with
  | nil =>
    cases h'
    rfl
  | object hq h ih =>
    cases h' with
    | object hq' h' =>
      obtain rfl := Shape.object.inj (hq.symm.trans hq')
      rw [ih h']
    | array hq' h' => cases hq.symm.trans hq'
    | leaf hobject harray h' => exact absurd hq (hobject _)
  | array hq h ih =>
    cases h' with
    | object hq' h' => cases hq.symm.trans hq'
    | array hq' h' =>
      obtain rfl := Shape.array.inj (hq.symm.trans hq')
      exact ih h'
    | leaf hobject harray h' => exact absurd hq (harray _)
  | leaf hobject harray h ih =>
    cases h' with
    | object hq' h' => exact absurd hq' (hobject _)
    | array hq' h' => exact absurd hq' (harray _)
    | leaf _ _ h' => exact ih h'

/-- In a document, what a value declares are the entries of its objects in document order, each of
them once. -/
theorem declaredBelow_iff (hview : env.view = docView root) {v : Jv} {p : List ℕ}
    (hv : jvAt p root = some v) (l : List (DynAnchor (List ℕ))) :
    DeclaredBelow env [p] l ↔ l = scopeEntries env p (placesIn v) := by
  have h := declaredBelow_value hview v p [] [] hv .nil
  rw [List.append_nil] at h
  constructor
  · exact fun hl => declaredBelow_unique hl h
  · rintro rfl
    exact h

mutual

/-- No place is named twice. -/
lemma placesIn_nodup : ∀ v : Jv, (placesIn v).Nodup
  | .array vs => by
    rw [placesIn]
    obtain ⟨hnodup, hhead⟩ := itemPlaces_nodup vs 0
    refine List.nodup_cons.mpr ⟨fun h => ?_, hnodup⟩
    obtain ⟨j, t, hq, -⟩ := hhead _ h
    cases hq
  | .object ms => by
    rw [placesIn]
    obtain ⟨hnodup, hhead⟩ := memberPlaces_nodup ms 0
    refine List.nodup_cons.mpr ⟨fun h => ?_, hnodup⟩
    obtain ⟨j, t, hq, -⟩ := hhead _ h
    cases hq
  | .null | .bool _ | .number _ | .string _ => by
    rw [placesIn]
    exact List.nodup_singleton _

/-- The places of the items from the `i`-th on begin with `i` or more. -/
lemma itemPlaces_nodup : ∀ (vs : List Jv) (i : ℕ), (itemPlaces i vs).Nodup ∧
    ∀ q ∈ itemPlaces i vs, ∃ j t, q = j :: t ∧ i ≤ j
  | [], i => by
    rw [itemPlaces]
    exact ⟨.nil, fun q hq => absurd hq List.not_mem_nil⟩
  | v :: vs, i => by
    rw [itemPlaces]
    exact nodup_beside (placesIn_nodup v) (itemPlaces_nodup vs (i + 1))

/-- The places of the members from the `i`-th on begin with `i` or more. -/
lemma memberPlaces_nodup : ∀ (ms : List (Bytes × Jv)) (i : ℕ), (memberPlaces i ms).Nodup ∧
    ∀ q ∈ memberPlaces i ms, ∃ j t, q = j :: t ∧ i ≤ j
  | [], i => by
    rw [memberPlaces]
    exact ⟨.nil, fun q hq => absurd hq List.not_mem_nil⟩
  | (_, v) :: ms, i => by
    rw [memberPlaces]
    exact nodup_beside (placesIn_nodup v) (memberPlaces_nodup ms (i + 1))

end

mutual

/-- The places of a value are those where something is. -/
lemma mem_placesIn : ∀ (v : Jv) (q : List ℕ), q ∈ placesIn v ↔ (jvAt q v).isSome = true
  | .array vs, q => by
    rw [placesIn, List.mem_cons, mem_itemPlaces vs 0 q]
    cases q with
    | nil => simp [jvAt]
    | cons j t => simp [jvAt]
  | .object ms, q => by
    rw [placesIn, List.mem_cons, mem_memberPlaces ms 0 q]
    cases q with
    | nil => simp [jvAt]
    | cons j t => simp [jvAt]
  | .null, q | .bool _, q | .number _, q | .string _, q => by
    rw [placesIn, List.mem_singleton]
    cases q with
    | nil => simp [jvAt]
    | cons j t => simp [jvAt]

/-- The places of the items from the `i`-th on. -/
lemma mem_itemPlaces : ∀ (vs : List Jv) (i : ℕ) (q : List ℕ), q ∈ itemPlaces i vs ↔
    ∃ j t, q = (i + j) :: t ∧ ((vs[j]?).bind (jvAt t)).isSome = true
  | [], i, q => by simp [itemPlaces]
  | v :: vs, i, q => by
    rw [itemPlaces, List.mem_append, List.mem_map, mem_itemPlaces vs (i + 1) q]
    constructor
    · rintro (⟨t, ht, rfl⟩ | ⟨j, t, rfl, ht⟩)
      · exact ⟨0, t, rfl, (mem_placesIn v t).mp ht⟩
      · exact ⟨j + 1, t, by rw [Nat.add_right_comm, Nat.add_assoc], ht⟩
    · rintro ⟨j, t, rfl, ht⟩
      cases j with
      | zero => exact .inl ⟨t, (mem_placesIn v t).mpr ht, rfl⟩
      | succ j => exact .inr ⟨j, t, by rw [Nat.add_right_comm, Nat.add_assoc], ht⟩

/-- The places of the members from the `i`-th on. -/
lemma mem_memberPlaces : ∀ (ms : List (Bytes × Jv)) (i : ℕ) (q : List ℕ),
    q ∈ memberPlaces i ms ↔
      ∃ j t, q = (i + j) :: t ∧ ((ms[j]?).bind fun m => jvAt t m.2).isSome = true
  | [], i, q => by simp [memberPlaces]
  | (k, v) :: ms, i, q => by
    rw [memberPlaces, List.mem_append, List.mem_map, mem_memberPlaces ms (i + 1) q]
    constructor
    · rintro (⟨t, ht, rfl⟩ | ⟨j, t, rfl, ht⟩)
      · exact ⟨0, t, rfl, (mem_placesIn v t).mp ht⟩
      · exact ⟨j + 1, t, by rw [Nat.add_right_comm, Nat.add_assoc], ht⟩
    · rintro ⟨j, t, rfl, ht⟩
      cases j with
      | zero => exact .inl ⟨t, (mem_placesIn v t).mpr ht, rfl⟩
      | succ j => exact .inr ⟨j, t, by rw [Nat.add_right_comm, Nat.add_assoc], ht⟩

end

/-- The objects of the entries stand among the places, in their order. -/
lemma scopeEntries_nodes (p : List ℕ) (places : List (List ℕ)) :
    ((scopeEntries env p places).map (·.node)).Sublist (places.map (p ++ ·)) := by
  induction places with
  | nil => exact .slnil
  | cons q places ih =>
    rw [scopeEntries, List.filterMap_cons]
    cases hq : scopeEntry env (p ++ q) (declaredAnchors env (p ++ q)) with
    | none => exact ih.cons _
    | some e =>
      have hnode : e.node = p ++ q := by
        obtain ⟨name, -, rfl⟩ := Option.map_eq_some_iff.mp hq
        rfl
      rw [List.map_cons, List.map_cons, hnode]
      exact ih.cons_cons _

/-- In a document, what a value declares are the entries of the objects under it that have anchors,
each of them once. -/
theorem declaredBelow_exact (hview : env.view = docView root) {v : Jv} {p : List ℕ}
    (hv : jvAt p root = some v) {l : List (DynAnchor (List ℕ))} (h : DeclaredBelow env [p] l) :
    (l.map (·.node)).Nodup ∧ ∀ e, e ∈ l ↔ ∃ q, (jvAt q v).isSome = true ∧
      scopeEntry env (p ++ q) (declaredAnchors env (p ++ q)) = some e := by
  obtain rfl := (declaredBelow_iff hview hv l).mp h
  constructor
  · refine (scopeEntries_nodes p (placesIn v)).nodup ?_
    exact (placesIn_nodup v).map fun q q' hq => List.append_cancel_left hq
  · intro e
    simp only [scopeEntries, List.mem_filterMap, mem_placesIn]

end Documents

/-! ## Two documents -/

/-- A document whose references lead nowhere else, in the dialect without a `$schema`. -/
def documentScopes (root : Jv) : ScopeEnv (List ℕ) where
  view := docView root
  vocabMask := 31
  dialectDeclared := false
  target := fun _ => none
  resourceRoot := fun _ => []
  isIntegral := fun _ => true
  isPositive := fun _ => true
  regexOk := fun _ => true
  resId := fun _ => 0

/-- Two anchors, one of them in an array. -/
def twoAnchors : Jv :=
  .object [(ascii "a", .object [(ascii "$dynamicAnchor", .string (ascii "x"))]),
    (ascii "b", .object [(ascii "c", .array [.object [(ascii "$recursiveAnchor", .bool true)]])])]

/-- Both are on the list of the root, which is compiled after 40 steps. -/
theorem selfScope_twoAnchors :
    (∀ i < 40,
      (scopeRun (documentScopes twoAnchors) [] i).clean (documentScopes twoAnchors) = true) ∧
    ∀ p ∈ (scopeRun (documentScopes twoAnchors) [] 40).done,
      DeclaredBelow (documentScopes twoAnchors) [p]
        ((scopeRun (documentScopes twoAnchors) [] 40).selfScope p) := by
  have hclean : ∀ i < 40,
      (scopeRun (documentScopes twoAnchors) [] i).clean (documentScopes twoAnchors) = true := by
    decide +kernel
  exact ⟨hclean, selfScope_sound (documentScopes twoAnchors) [] 40 hclean⟩

/-- An object that refers to an anchor of the same resource, and the anchor. -/
def lookedUpText : Bytes :=
  ascii ("\x7b\"b\":\x7b\"$dynamicRef\":\"#x\"\x7d," ++
    "\"a\":\x7b\"$dynamicAnchor\":\"x\"\x7d\x7d")

/-- The root of such a schema has the anchor on its list twice. -/
theorem selfScope_twice :
    ¬ ∀ (text : Bytes) (root : Jv) (n : ℕ), jsonRead (fun _ => ⟨0⟩) text = .ok root →
      (scopeRun (documentScopes root) [] n).stack = [] →
        ∀ p ∈ (scopeRun (documentScopes root) [] n).done,
          DeclaredBelow (documentScopes root) [p]
            ((scopeRun (documentScopes root) [] n).selfScope p) := by
  intro h
  have hrun : (match jsonRead (fun _ => ⟨0⟩) lookedUpText with
      | .ok root =>
        let c := scopeRun (documentScopes root) [] 40
        c.stack.isEmpty && decide ([] ∈ c.done) && ((c.selfScope []).length == 2) &&
          ((scopeEntries (documentScopes root) [] (placesIn root)).length == 1)
      | .error _ => false) = true := by
    decide +kernel
  cases hroot : jsonRead (fun _ => ⟨0⟩) lookedUpText with
  | error f =>
    rw [hroot] at hrun
    cases hrun
  | ok root =>
    simp only [hroot, Bool.and_eq_true, List.isEmpty_iff, decide_eq_true_eq, beq_iff_eq] at hrun
    obtain ⟨⟨⟨hstack, hdone⟩, htwo⟩, hone⟩ := hrun
    have hlist := (declaredBelow_iff rfl rfl _).mp (h lookedUpText root 40 hroot hstack [] hdone)
    rw [hlist, hone] at htwo
    cases htwo

end Teptris
