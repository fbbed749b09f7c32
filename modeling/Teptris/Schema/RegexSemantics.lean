import Teptris.Library.Passage
import Teptris.Schema.RegexNfa

/-!
# What a pattern matches

The meaning of a pattern tree over the positions of a text: `Ra.Matches s r i j` says that `r`
matches from position `i` to position `j` of the code points `s`.  Sequences compose, branches
unite, a repetition takes its child any number of times within its bounds, and anchors and word
boundaries look at the text around a position.

The two conditions of this file are about the tree alone.  `Ra.spliced` is about empty pieces, which
have no state to lead to: none of them stands behind a piece that has one.  `Ra.ascending` is
about classes: the ranges of each ascend, as the binary search of `cls_match` expects.
-/

namespace Teptris

/-! ## The reference -/

/-- One code point that satisfies `p`. -/
def Reads (s : List ℕ) (p : ℕ → Prop) (i j : ℕ) : Prop := ∃ x, s[i]? = some x ∧ p x ∧ j = i + 1

/-- A position where `p` holds, without reading. -/
def Stands (p : ℕ → Prop) (i j : ℕ) : Prop := p i ∧ j = i

/-- A code point lies in one of the ranges. -/
def InRanges (ranges : List RaRange) (x : ℕ) : Prop := ∃ r ∈ ranges, r.lo ≤ x ∧ x ≤ r.hi

/-- A folded letter stands for both cases, another code point for itself. -/
def CharAccepts (cp : ℕ) (ci : Bool) (x : ℕ) : Prop := (if ci then foldCp x else x) = cp

/-- A class takes what its ranges take, a negated one what they do not. -/
def ClassAccepts (ranges : List RaRange) (negated : Bool) (x : ℕ) : Prop :=
  InRanges ranges x ↔ negated = false

/-- A word begins or ends at the position. -/
def AtWordBoundary (s : List ℕ) (i : ℕ) : Prop := wordBoundary s i = true

mutual

/-- The tree matches from one position to the other. -/
def Ra.Matches (s : List ℕ) : Ra → ℕ → ℕ → Prop
  | .char cp ci => Reads s (CharAccepts cp ci)
  | .any => Reads s fun _ => True
  | .cls ranges negated => Reads s (ClassAccepts ranges negated)
  | .seq pieces => SeqMatches s pieces
  | .alt first others => fun i j => Ra.Matches s first i j ∨ AnyMatches s others i j
  | .quant child qmin qmax => fun i j =>
    ∃ k, qmin ≤ k ∧ (∀ m, qmax = some m → k ≤ m) ∧ Machine.power (Ra.Matches s child) k i j
  | .bol => Stands (· = 0)
  | .eol => Stands (s.length ≤ ·)
  | .wordb => Stands (AtWordBoundary s)
  | .nwordb => Stands (¬ AtWordBoundary s ·)

/-- The pieces match one behind the other. -/
def SeqMatches (s : List ℕ) : List Ra → ℕ → ℕ → Prop
  | [] => Eq
  | r :: rs => Relation.Comp (Ra.Matches s r) (SeqMatches s rs)

/-- One of the branches matches. -/
def AnyMatches (s : List ℕ) : List Ra → ℕ → ℕ → Prop
  | [] => fun _ _ => False
  | r :: rs => fun i j => Ra.Matches s r i j ∨ AnyMatches s rs i j

end

/-- The pattern matches somewhere in the text. -/
def Ra.Occurs (s : List ℕ) (r : Ra) : Prop := ∃ i j, i ≤ s.length ∧ r.Matches s i j

/-! ## Conditions on a tree -/

mutual

/-- `p` holds of every node that is emitted: nothing below a repetition `{0}` is. -/
def Ra.every (p : Ra → Bool) : Ra → Bool
  | .seq pieces => p (.seq pieces) && everyOf p pieces
  | .alt first others => p (.alt first others) && (Ra.every p first && everyOf p others)
  | .quant child qmin qmax =>
    p (.quant child qmin qmax) && (qmax = some 0 || Ra.every p child)
  | r => p r

/-- `p` holds of every emitted node of every tree. -/
def everyOf (p : Ra → Bool) : List Ra → Bool
  | [] => true
  | r :: rs => Ra.every p r && everyOf p rs

end

mutual

/-- A tree that is emitted as a fragment without an entry. -/
def Ra.pureEpsilon : Ra → Bool
  | .seq pieces => allEpsilon pieces
  | .alt first others => others.isEmpty && Ra.pureEpsilon first
  | .quant child _ qmax => qmax = some 0 || Ra.pureEpsilon child
  | _ => false

/-- All trees are emitted without an entry. -/
def allEpsilon : List Ra → Bool
  | [] => true
  | r :: rs => Ra.pureEpsilon r && allEpsilon rs

end

/-- No empty piece stands behind a piece that is not empty. -/
def epsilonsFirst : List Ra → Bool
  | [] => true
  | r :: rs => if r.pureEpsilon then epsilonsFirst rs else rs.all fun q => !q.pureEpsilon

/-- A sequence has its empty pieces in front. -/
def splicedNode : Ra → Bool
  | .seq pieces => epsilonsFirst pieces
  | _ => true

/-- Every sequence has its empty pieces in front. -/
def Ra.spliced (r : Ra) : Bool := r.every splicedNode

/-- No range is empty, and each lies above the ones before it. -/
def ascendingRanges : List RaRange → Bool
  | [] => true
  | r :: rs => r.lo ≤ r.hi && (rs.all fun t => r.hi < t.lo) && ascendingRanges rs

/-- A class has ascending ranges. -/
def ascendingNode : Ra → Bool
  | .cls ranges _ => ascendingRanges ranges
  | _ => true

/-- Every class has ascending ranges. -/
def Ra.ascending (r : Ra) : Bool := r.every ascendingNode

/-- What the parser promises of a node: a folded code point is a small letter, and the bounds of a
repetition are in order. -/
def formedNode : Ra → Bool
  | .char cp ci => !ci || ('a'.toNat ≤ cp && cp ≤ 'z'.toNat)
  | .quant _ qmin qmax => qmax.all (qmin ≤ ·)
  | _ => true

/-- Every node is as the parser promises. -/
def Ra.wellFormed (r : Ra) : Bool := r.every formedNode

mutual

/-- Two conditions on the nodes of a tree. -/
lemma every_and (p q : Ra → Bool) : ∀ r : Ra,
    r.every (fun x => p x && q x) = (r.every p && r.every q)
  | .seq pieces => by
    simp only [Ra.every, everyOf_and p q pieces]
    grind
  | .alt first others => by
    simp only [Ra.every, every_and p q first, everyOf_and p q others]
    grind
  | .quant child qmin qmax => by
    simp only [Ra.every, every_and p q child]
    grind
  | .char .. => rfl
  | .any => rfl
  | .cls .. => rfl
  | .bol => rfl
  | .eol => rfl
  | .wordb => rfl
  | .nwordb => rfl

/-- Two conditions on the nodes of some trees. -/
lemma everyOf_and (p q : Ra → Bool) : ∀ rs : List Ra,
    everyOf (fun x => p x && q x) rs = (everyOf p rs && everyOf q rs)
  | [] => rfl
  | r :: rs => by
    simp only [everyOf, every_and p q r, everyOf_and p q rs]
    grind

end

end Teptris
