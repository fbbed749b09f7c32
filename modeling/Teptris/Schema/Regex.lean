import Teptris.Dom.Byte
import Teptris.Library.Bisect
import Teptris.Library.Loop

/-!
# Patterns

The pattern parser of `regex.c`: from the code points of a pattern to its tree.  Code points are
natural numbers, and the table of `\p{...}` properties, which a script generates, is a parameter.

A class under construction has a buffer of ranges; where the source writes past it the outcome
is not defined, and so is that of a repetition count beyond the `long` range.  Both are recorded
in `PCtx.overrun`, and what the parser returns after that is no longer looked at.
-/

namespace Teptris

/-! ## The tree -/

/-- `ra_range`. -/
structure RaRange where
  /-- The least code point. -/
  lo : ℕ
  /-- The greatest code point. -/
  hi : ℕ
  deriving DecidableEq

/-- `ra`, one constructor for each kind; `qmax` is `none` for `-1`. -/
inductive Ra where
  /-- `RA_CHAR`. -/
  | char (cp : ℕ) (ci : Bool)
  /-- `RA_ANY`. -/
  | any
  /-- `RA_CLASS`. -/
  | cls (ranges : List RaRange) (negated : Bool)
  /-- `RA_SEQ`. -/
  | seq (pieces : List Ra)
  /-- `RA_ALT`, which has at least one branch. -/
  | alt (first : Ra) (others : List Ra)
  /-- `RA_QUANT`. -/
  | quant (child : Ra) (qmin : ℕ) (qmax : Option ℕ)
  /-- `RA_BOL`. -/
  | bol
  /-- `RA_EOL`. -/
  | eol
  /-- `RA_WORDB`. -/
  | wordb
  /-- `RA_NWORDB`. -/
  | nwordb

/-- `fold_cp`. -/
def foldCp (cp : ℕ) : ℕ :=
  if 'A'.toNat ≤ cp ∧ cp ≤ 'Z'.toNat then cp + 32 else cp

/-- `is_word_cp`. -/
def isWordCp (cp : ℕ) : Bool :=
  ('a'.toNat ≤ cp ∧ cp ≤ 'z'.toNat) ∨ ('A'.toNat ≤ cp ∧ cp ≤ 'Z'.toNat) ∨
    ('0'.toNat ≤ cp ∧ cp ≤ '9'.toNat) ∨ cp = '_'.toNat

/-! ## Code points -/

/-- A continuation byte, `(b & 0xC0) == 0x80`. -/
def isTail (b : UInt8) : Bool := b &&& 0xC0 = 0x80

/-- `k` continuation bytes are in front. -/
def tailsAhead (k : ℕ) (rest : Bytes) : Bool := k ≤ rest.length ∧ (rest.take k).all isTail

/-- The bits of a lead byte and of the `k` bytes behind it, `<< 6` and `|` for each of them. -/
def gather (lead : UInt8) (k : ℕ) (rest : Bytes) : ℕ :=
  (rest.take k).foldl (fun cp b => cp <<< 6 ||| (b &&& 0x3F).toNat) lead.toNat

/-- One code point with the number of its bytes behind the first, as `utf8_to_cp` and
`sch_regex_is_match` read it: an invalid byte is one replacement code point. -/
def decodeCp (b : UInt8) (rest : Bytes) : ℕ × ℕ :=
  if b < 0x80 then (b.toNat, 0)
  else if b &&& 0xE0 = 0xC0 ∧ tailsAhead 1 rest then (gather (b &&& 0x1F) 1 rest, 1)
  else if b &&& 0xF0 = 0xE0 ∧ tailsAhead 2 rest then (gather (b &&& 0x0F) 2 rest, 2)
  else if b &&& 0xF8 = 0xF0 ∧ tailsAhead 3 rest then (gather (b &&& 0x07) 3 rest, 3)
  else (0xFFFD, 0)

/-- The code points of the bytes behind the next `skip` ones. -/
def decodeFrom : ℕ → Bytes → List ℕ
  | _, [] => []
  | skip + 1, _ :: rest => decodeFrom skip rest
  | 0, b :: rest => (decodeCp b rest).1 :: decodeFrom (decodeCp b rest).2 rest

/-- The code points of a byte string. -/
def decodeCps (s : Bytes) : List ℕ := decodeFrom 0 s

/-- The number of code points `utf8_to_cp` reserves room for, which looks at lead bytes only. -/
def countFrom : ℕ → Bytes → ℕ
  | _, [] => 0
  | skip + 1, _ :: rest => countFrom skip rest
  | 0, b :: rest =>
    let step := if b < 0x80 then 0 else if b < 0xE0 then 1 else if b < 0xF0 then 2 else 3
    countFrom (if rest.length < step then 0 else step) rest + 1

/-! ## The parser's state -/

/-- `pctx`: the code points that are still to come, the fold flag and the first error. -/
structure PCtx where
  /-- `s` from `pos` on. -/
  s : List ℕ
  /-- `(?i)` stands in front of the pattern. -/
  fold : Bool
  /-- `err`. -/
  err : Option String
  /-- Something was done whose outcome is not defined. -/
  overrun : Bool

/-- `pfail`. -/
def PCtx.pfail (c : PCtx) (msg : String) : PCtx := { c with err := c.err.or (some msg) }

/-- A class under construction: its ranges and the number of ranges the buffer holds. -/
structure Cls where
  /-- `ranges`. -/
  ranges : List RaRange
  /-- What `cls_reserve` allocated last. -/
  room : ℕ
  /-- A range was written behind the buffer. -/
  overrun : Bool

/-- `rn(c, RA_CLASS)`. -/
def Cls.new : Cls := { ranges := [], room := 0, overrun := false }

/-- `cl->ranges[cl->n_ranges++] = …`. -/
def Cls.push (cl : Cls) (lo hi : ℕ) : Cls :=
  { cl with ranges := cl.ranges ++ [⟨lo, hi⟩], overrun := cl.overrun || cl.room ≤ cl.ranges.length }

/-- `cls_reserve`. -/
def Cls.reserve (cl : Cls) (cap : ℕ) : Cls :=
  { cl with room := cap, overrun := cl.overrun || cap < cl.ranges.length }

/-- The part of a range that meets `first`, …, `last`, moved by `move`. -/
def Cls.mirror (cl : Cls) (first last : ℕ) (move : ℕ → ℕ) (lo hi : ℕ) : Cls :=
  if lo ≤ last ∧ first ≤ hi then
    let mlo := if lo < first then first else lo
    let mhi := if last < hi then last else hi
    if mlo ≤ mhi then cl.push (move mlo) (move mhi) else cl
  else cl

/-- `cls_add`. -/
def clsAdd (fold : Bool) (cl : Cls) (lo hi : ℕ) : Cls :=
  let cl :=
    if fold then
      (cl.mirror 'A'.toNat 'Z'.toNat foldCp lo hi).mirror 'a'.toNat 'z'.toNat (· - 32) lo hi
    else cl
  cl.push lo hi

/-- `cls_add_cp`. -/
def clsAddCp (fold : Bool) (cl : Cls) (cp : ℕ) : Cls :=
  if fold ∧ 'A'.toNat ≤ cp ∧ cp ≤ 'Z'.toNat then (cl.push cp cp).push (foldCp cp) (foldCp cp)
  else if fold ∧ 'a'.toNat ≤ cp ∧ cp ≤ 'z'.toNat then (cl.push (foldCp cp) (foldCp cp)).push cp cp
  else cl.push cp cp

/-! ## Properties -/

/-- `teptris_uc_prop`; the name is a C string. -/
structure UcProp where
  /-- `name`. -/
  name : List ℕ
  /-- `ranges`. -/
  ranges : List RaRange

/-- The comparison of `uc_find` of a name of the table with the name in the pattern. -/
def ucCompare : List ℕ → List ℕ → Ordering
  | [], [] => .eq
  | _ :: _, [] => .lt
  | name, x :: s =>
    let c := name.headD 0
    if c = 0 ∨ c ≠ x then if c < x then .gt else .lt else ucCompare name.tail s

/-- `uc_find`. -/
def ucFind (table : List UcProp) (s : List ℕ) : Option UcProp :=
  (Bisect.bisect (fun i => ((table[i]?).map fun p => ucCompare p.name s).getD .lt)
    table.length).bind fun i => table[i]?

/-- The gaps in front of the ranges, `expect` being the first code point not looked at. -/
def complementFrom (cl : Cls) (expect : ℕ) : List RaRange → Cls
  | [] => if expect < 0x110000 then cl.push expect (0x110000 - 1) else cl
  | r :: rs =>
    complementFrom (if expect < r.lo then cl.push expect (r.lo - 1) else cl)
      (if expect < r.hi + 1 then r.hi + 1 else expect) rs

/-- `cls_append_complement`. -/
def clsAppendComplement (cl : Cls) (rs : List RaRange) : Cls := complementFrom cl 0 rs

/-- `prop_escape`, behind the letter. -/
def propEscape (table : List UcProp) (c : PCtx) (cl : Cls) (negateLetter : Bool) : Cls × PCtx :=
  match c.s with
  | [] => (cl, c.pfail "\\p needs a \x7bproperty\x7d name")
  | b :: s =>
    if b ≠ 0x7B then (cl, c.pfail "\\p needs a \x7bproperty\x7d name")
    else
      let innerNeg : Bool := s.head? = some '^'.toNat
      let s := if innerNeg then s.tail else s
      let name := s.takeWhile (· ≠ 0x7D)
      match s.dropWhile (· ≠ 0x7D) with
      | [] => (cl, { c with s := [] }.pfail "unterminated \\p\x7b...\x7d")
      | _ :: s =>
        let c := { c with s := s }
        if name = [] then (cl, c.pfail "empty \\p\x7b\x7d property name")
        else
          match ucFind table name with
          | none => (cl, c.pfail "unknown \\p\x7b...\x7d property name")
          | some p =>
            let negate := negateLetter != innerNeg
            let cl := cl.reserve ((if negate then 2 * p.ranges.length else p.ranges.length) + 8)
            if negate then (clsAppendComplement cl p.ranges, c)
            else (p.ranges.foldl (fun cl r => cl.push r.lo r.hi) cl, c)

/-! ## Escapes -/

/-- `cls_shorthand`. -/
def clsShorthand (fold : Bool) (cl : Cls) (e : ℕ) : Cls :=
  if e = 'd'.toNat ∨ e = 'D'.toNat then cl.push '0'.toNat '9'.toNat
  else if e = 'w'.toNat ∨ e = 'W'.toNat then
    clsAdd fold (clsAdd fold (clsAdd fold (clsAdd fold cl 'a'.toNat 'z'.toNat) 'A'.toNat 'Z'.toNat)
      '0'.toNat '9'.toNat) '_'.toNat '_'.toNat
  else [' '.toNat, 0x09, 0x0A, 0x0D, 0x0C, 0x0B].foldl (clsAddCp fold) cl

/-- `jhexv`. -/
def jhexv (cp : ℕ) : Option ℕ :=
  if '0'.toNat ≤ cp ∧ cp ≤ '9'.toNat then some (cp - '0'.toNat)
  else if 'a'.toNat ≤ cp ∧ cp ≤ 'f'.toNat then some (cp - 'a'.toNat + 10)
  else if 'A'.toNat ≤ cp ∧ cp ≤ 'F'.toNat then some (cp - 'A'.toNat + 10)
  else none

/-- What `class_escape` returns. -/
inductive Escape where
  /-- A code point. -/
  | cp (v : ℕ)
  /-- `-1`: ranges were added. -/
  | shorthand
  /-- `-2`. -/
  | failed

/-- The value of hexadecimal digits. -/
def hexValue (ds : List ℕ) : Option ℕ :=
  ds.foldl (fun v d => v.bind fun v => (jhexv d).map (v * 16 + ·)) (some 0)

/-- The `n` hexadecimal digits behind `\x` or `\u`. -/
def hexCode (c : PCtx) (n : ℕ) (incomplete invalid : String) : Escape × PCtx :=
  if c.s.length < n then (.failed, c.pfail incomplete)
  else
    match hexValue (c.s.take n) with
    | none => (.failed, c.pfail invalid)
    | some v => (.cp v, { c with s := c.s.drop n })

/-- `class_escape`, behind the backslash. -/
def classEscape (table : List UcProp) (c : PCtx) (cl : Cls) : Escape × Cls × PCtx :=
  match c.s with
  | [] => (.failed, cl, c.pfail "trailing backslash in pattern")
  | e :: s =>
    let c' := { c with s := s }
    if e ∈ ['d', 'D', 'w', 'W', 's', 'S'].map Char.toNat then
      (.shorthand, clsShorthand c.fold cl e, c')
    else if e = 'p'.toNat ∨ e = 'P'.toNat then
      (.shorthand, propEscape table c' cl (e = 'P'.toNat))
    else if e = 'x'.toNat then
      let (r, c') := hexCode c' 2 "incomplete \\x escape" "invalid \\x escape"
      (r, cl, c')
    else if e = 'u'.toNat then
      let (r, c') := hexCode c' 4 "incomplete \\u escape" "invalid \\u escape"
      (r, cl, c')
    else if e = 'n'.toNat then (.cp 0x0A, cl, c')
    else if e = 'r'.toNat then (.cp 0x0D, cl, c')
    else if e = 't'.toNat then (.cp 0x09, cl, c')
    else if e = 'f'.toNat then (.cp 0x0C, cl, c')
    else if e = 'v'.toNat then (.cp 0x0B, cl, c')
    else if e = '0'.toNat then (.cp 0, cl, c')
    else if '1'.toNat ≤ e ∧ e ≤ '9'.toNat then
      (.failed, cl, c.pfail "backreferences are not supported")
    else (.cp e, cl, c')

/-! ## Classes -/

/-- The insertion of a range behind those that do not begin later. -/
def insertRange (r : RaRange) : List RaRange → List RaRange
  | [] => [r]
  | x :: xs => if r.lo < x.lo then r :: x :: xs else x :: insertRange r xs

/-- The second half of `cls_sort_merge`: `w` is the range that is growing. -/
def mergeRanges (w : RaRange) : List RaRange → List RaRange
  | [] => [w]
  | r :: rs =>
    if r.lo ≤ w.hi + 1 then mergeRanges (if w.hi < r.hi then { w with hi := r.hi } else w) rs
    else w :: mergeRanges r rs

/-- `cls_sort_merge`, an insertion sort and a pass that joins what touches.  The source reads the
first range of an empty class. -/
def clsSortMerge (cl : Cls) : Cls :=
  match cl.ranges.foldl (fun sorted r => insertRange r sorted) [] with
  | [] => { cl with overrun := true }
  | r :: rs => { cl with ranges := mergeRanges r rs }

/-- The parser behind `return`: a tree, or `NULL` with or without an error. -/
abbrev Parsed := Option Ra × PCtx

/-- The state of the loop of `rclass`. -/
structure ClassScan where
  /-- The parser. -/
  c : PCtx
  /-- The class. -/
  cl : Cls
  /-- `cap`. -/
  cap : ℕ
  /-- Nothing has been read yet. -/
  first : Bool

/-- The end of `rclass`, with what the class did to the parser's state. -/
def ClassScan.finish (st : ClassScan) (r : Option Ra) (c : PCtx) : Parsed :=
  (r, { c with overrun := c.overrun || st.cl.overrun })

/-- Room for the ranges of one more literal. -/
def ClassScan.grow (st : ClassScan) : ClassScan :=
  if st.cap ≤ st.cl.ranges.length + 2 then
    { st with cap := st.cap * 2, cl := st.cl.reserve (st.cap * 2) }
  else st

/-- A literal or an escape inside a class, `ch` being its first code point. -/
def classItem (table : List UcProp) (c : PCtx) (cl : Cls) (ch : ℕ) : Escape × Cls × PCtx :=
  if ch = '\\'.toNat then classEscape table c cl else (.cp ch, cl, c)

/-- A range with the lower end `lo` when a `-` that does not end the class follows, else `lo`
alone. -/
def classRange (table : List UcProp) (st : ClassScan) (lo : ℕ) :
    Except Unit (Loop.Turn ClassScan Parsed) :=
  let fold := st.c.fold
  match st.c.s with
  | d :: h :: s =>
    if d = '-'.toNat ∧ h ≠ 0x5D then
      match classItem table { st.c with s := s } st.cl h with
      | (.failed, cl, c) => .ok (.stop ({ st with cl := cl }.finish none c))
      | (.shorthand, cl, c) =>
        .ok (.stop ({ st with cl := cl }.finish none
          (c.pfail "class shorthand as a range endpoint")))
      | (.cp hi, cl, c) =>
        if hi < lo then
          .ok (.stop ({ st with cl := cl }.finish none (c.pfail "class range out of order")))
        else
          let st := { st with cl := cl, c := c }.grow
          .ok (.next { st with cl := clsAdd fold st.cl lo hi })
    else
      let st := st.grow
      .ok (.next { st with cl := clsAddCp fold st.cl lo })
  | _ =>
    let st := st.grow
    .ok (.next { st with cl := clsAddCp fold st.cl lo })

/-- One turn of the loop of `rclass`. -/
def rclassTurn (table : List UcProp) (negated : Bool) (st : ClassScan) :
    Except Unit (Loop.Turn ClassScan Parsed) :=
  match st.c.s with
  | [] => .ok (.stop (st.finish none (st.c.pfail "unterminated character class")))
  | ch :: s =>
    let c := { st.c with s := s }
    if ch = 0x5D ∧ ¬ st.first then
      let st := { st with cl := clsSortMerge st.cl }
      .ok (.stop (st.finish (some (.cls st.cl.ranges negated)) c))
    else
      match classItem table c st.cl ch with
      | (.failed, cl, c) => .ok (.stop ({ st with cl := cl }.finish none c))
      | (.shorthand, cl, c) => .ok (.next { st with c := c, cl := cl, first := false })
      | (.cp lo, cl, c) => classRange table { st with c := c, cl := cl, first := false } lo

/-- `rclass`, behind the bracket. -/
def rclass (table : List UcProp) (c : PCtx) : Parsed :=
  let negated : Bool := c.s.head? = some '^'.toNat
  let c := if negated then { c with s := c.s.tail } else c
  let st : ClassScan := { c := c, cl := Cls.new.reserve 8, cap := 8, first := true }
  match Loop.loop (rclassTurn table negated) () (fun st => st.c.s.length) st with
  | .ok r => r
  | .error _ => (none, c)

/-! ## Quantifiers -/

/-- What `rquant` finds. -/
inductive Quantity where
  /-- No quantifier. -/
  | absent
  /-- Bounds, `none` for `-1`. -/
  | bounds (qmin : ℕ) (qmax : Option ℕ)
  /-- A quantifier that is not accepted. -/
  | invalid

/-- A decimal digit of a bound. -/
def isCount (cp : ℕ) : Bool := '0'.toNat ≤ cp ∧ cp ≤ '9'.toNat

/-- The digits in front, their value, and whether it is beyond the `long` range. -/
def readCount (s : List ℕ) : List ℕ × ℕ × Bool :=
  let ds := s.takeWhile isCount
  let v := ds.foldl (fun v d => v * 10 + (d - '0'.toNat)) 0
  (ds, v, 2 ^ 63 ≤ v)

/-- The bounds between braces, behind the opening one, and what follows the closing one; `none`
where the brace is a literal. -/
def rbraces (s : List ℕ) : Option (ℕ × Option ℕ × List ℕ) :=
  let (ds, lo, _) := readCount s
  if ds = [] then none
  else
    match s.dropWhile isCount with
    | 0x7D :: s => some (lo, some lo, s)
    | 0x2C :: 0x7D :: s => some (lo, none, s)
    | 0x2C :: s =>
      let (ds, hi, _) := readCount s
      match s.dropWhile isCount with
      | 0x7D :: s => if ds = [] then none else some (lo, some hi, s)
      | _ => none
    | _ => none

/-- A count that is read is beyond the `long` range. -/
def rbracesOverrun (s : List ℕ) : Bool :=
  let (ds, _, long) := readCount s
  long ||
    match ds, s.dropWhile isCount with
    | _ :: _, 0x2C :: s => (readCount s).2.2
    | _, _ => false

/-- A `?` behind a quantifier changes nothing. -/
def skipLazy (s : List ℕ) : List ℕ := if s.head? = some '?'.toNat then s.tail else s

/-- `rquant`. -/
def rquant (c : PCtx) : Quantity × PCtx :=
  match c.s with
  | [] => (.absent, c)
  | ch :: s =>
    if ch = '*'.toNat then (.bounds 0 none, { c with s := skipLazy s })
    else if ch = '+'.toNat then (.bounds 1 none, { c with s := skipLazy s })
    else if ch = '?'.toNat then (.bounds 0 (some 1), { c with s := skipLazy s })
    else if ch = 0x7B then
      let c := { c with overrun := c.overrun || rbracesOverrun s }
      match rbraces s with
      | none => (.absent, c)
      | some (lo, hi, s) =>
        let c := { c with s := s }
        if hi.any (· < lo) then (.invalid, c.pfail "quantifier range out of order")
        else (.bounds lo hi, { c with s := skipLazy c.s })
    else (.absent, c)

/-! ## Atoms -/

/-- A literal code point, as the default cases of `ratom` build it. -/
def charAtom (fold : Bool) (cp : ℕ) : Ra :=
  .char (if fold then foldCp cp else cp)
    (fold && (('a'.toNat ≤ cp ∧ cp ≤ 'z'.toNat) ∨ ('A'.toNat ≤ cp ∧ cp ≤ 'Z'.toNat)))

/-- An escaped code point: only a small letter is folded. -/
def escapedAtom (fold : Bool) (cp : ℕ) : Ra :=
  .char (if fold then foldCp cp else cp) (fold && ('a'.toNat ≤ cp ∧ cp ≤ 'z'.toNat))

/-- `ratom` behind a backslash. -/
def ratomEscape (table : List UcProp) (c : PCtx) : Parsed :=
  match c.s with
  | [] => (none, c.pfail "trailing backslash in pattern")
  | e :: s =>
    let c' := { c with s := s }
    if e ∈ ['d', 'w', 's', 'D', 'W', 'S'].map Char.toNat then
      let cl := clsShorthand c.fold (Cls.new.reserve 8) e
      (some (.cls cl.ranges (e ∈ ['D', 'W', 'S'].map Char.toNat)),
        { c' with overrun := c.overrun || cl.overrun })
    else if e = 'p'.toNat ∨ e = 'P'.toNat then
      let (cl, c) := propEscape table c' .new (e = 'P'.toNat)
      if c.err.isSome then (none, c)
      else (some (.cls cl.ranges false), { c with overrun := c.overrun || cl.overrun })
    else if e = 'b'.toNat then (some .wordb, c')
    else if e = 'B'.toNat then (some .nwordb, c')
    else
      match classEscape table c .new with
      | (.failed, _, c) => (none, c)
      | (.shorthand, _, c) => (none, c.pfail "class shorthand outside a class")
      | (.cp cp, _, c) => (some (escapedAtom c.fold cp), c)

/-- What may stand behind the bracket of a group: nothing, `?:` or `?<name>`. -/
def groupHead (c : PCtx) : Except PCtx PCtx :=
  match c.s with
  | [] => .ok c
  | q :: s =>
    if q ≠ '?'.toNat then .ok c
    else
      let c := { c with s := s }
      let flags := "inline flags other than a leading (?i) are not supported"
      match s with
      | [] => .error (c.pfail flags)
      | k :: s' =>
        if k = ':'.toNat then .ok { c with s := s' }
        else if k = '='.toNat ∨ k = '!'.toNat then .error (c.pfail "lookahead is not supported")
        else if k = '<'.toNat then
          if s'.head? = some '='.toNat ∨ s'.head? = some '!'.toNat then
            .error (c.pfail "lookbehind is not supported")
          else
            match s.dropWhile (· ≠ '>'.toNat) with
            | [] => .error ({ c with s := [] }.pfail "unterminated group name")
            | _ :: s => .ok { c with s := s }
        else .error (c.pfail flags)

/-- `ratom` behind an opening bracket. -/
def ratomGroup (ralternation : PCtx → Parsed) (c : PCtx) : Parsed :=
  match groupHead c with
  | .error c => (none, c)
  | .ok c =>
    let (body, c) := ralternation c
    if body.isNone ∧ c.err.isSome then (none, c)
    else
      match c.s with
      | [] => (none, c.pfail "unterminated group")
      | b :: s =>
        if b ≠ ')'.toNat then (none, c.pfail "unterminated group")
        else (some (.alt (body.getD (.seq [])) []), { c with s := s })

/-- `ratom`. -/
def ratom (table : List UcProp) (ralternation : PCtx → Parsed) (c : PCtx) : Parsed :=
  match c.s with
  | [] => (none, c)
  | ch :: s =>
    let c' := { c with s := s }
    if ch = ')'.toNat then (none, c)
    else if ch = '^'.toNat then (some .bol, c')
    else if ch = '$'.toNat then (some .eol, c')
    else if ch = '.'.toNat then (some .any, c')
    else if ch = 0x5B then rclass table c'
    else if ch = '('.toNat then ratomGroup ralternation c'
    else if ch = '\\'.toNat then ratomEscape table c'
    else (some (charAtom c.fold ch), c')

/-- The atoms that take no quantifier. -/
def Ra.isAnchor : Ra → Bool
  | .bol => true
  | .eol => true
  | .wordb => true
  | .nwordb => true
  | _ => false

/-- `rrepeat`. -/
def rrepeat (table : List UcProp) (ralternation : PCtx → Parsed) (c : PCtx) : Parsed :=
  match ratom table ralternation c with
  | (none, c) => (none, c)
  | (some atom, c) =>
    match rquant c with
    | (.invalid, c) => (none, c)
    | (.absent, c) => (some atom, c)
    | (.bounds qmin qmax, c) =>
      if atom.isAnchor then (none, c.pfail "cannot quantify an anchor")
      else (some (.quant atom qmin qmax), c)

/-! ## Sequences and alternations -/

/-- One turn of the loop of `rconcat`, with the pieces read so far. -/
def rconcatTurn (table : List UcProp) (ralternation : PCtx → Parsed) (st : PCtx × List Ra) :
    Except Unit (Loop.Turn (PCtx × List Ra) Parsed) :=
  if st.1.s.head? = some '|'.toNat then .ok (.stop (some (.seq st.2), st.1))
  else
    match rrepeat table ralternation st.1 with
    | (none, c) => .ok (.stop (if c.err.isSome then (none, c) else (some (.seq st.2), c)))
    | (some piece, c) => .ok (.next (c, st.2 ++ [piece]))

/-- `rconcat`. -/
def rconcat (table : List UcProp) (ralternation : PCtx → Parsed) (c : PCtx) : Parsed :=
  match Loop.loop (rconcatTurn table ralternation) () (fun st => st.1.s.length) (c, []) with
  | .ok r => r
  | .error _ => (none, c)

/-- One turn of the loop of `ralternation`, with the branches behind the first. -/
def ralternationTurn (rconcat : PCtx → Parsed) (first : Ra) (st : PCtx × List Ra) :
    Except Unit (Loop.Turn (PCtx × List Ra) Parsed) :=
  match st.1.s with
  | b :: s =>
    if b = '|'.toNat then
      match rconcat { st.1 with s := s } with
      | (none, c) => .ok (.stop (none, c))
      | (some branch, c) => .ok (.next (c, st.2 ++ [branch]))
    else .ok (.stop (some (.alt first st.2), st.1))
  | [] => .ok (.stop (some (.alt first st.2), st.1))

/-- `ralternation` over a given `rconcat`. -/
def branches (rconcat : PCtx → Parsed) (c : PCtx) : Parsed :=
  match rconcat c with
  | (none, c) => (none, c)
  | (some first, c) =>
    if c.s.head? ≠ some '|'.toNat then (some first, c)
    else
      match Loop.loop (ralternationTurn rconcat first) () (fun st => st.1.s.length) (c, []) with
      | .ok r => r
      | .error _ => (none, c)

/-- `ralternation`; groups nest `levels` deep at most, and a pattern with `n` code points left
has no more than `n` of them open. -/
def ralternation (table : List UcProp) : ℕ → PCtx → Parsed
  | 0, c => (none, c)
  | levels + 1, c => branches (rconcat table (ralternation table levels)) c

/-- The parser at the start of a pattern: `(?i)` in front folds the rest. -/
def startCtx (pattern : Bytes) : PCtx :=
  let cps := decodeCps pattern
  let fold : Bool := cps.take 4 = ['(', '?', 'i', ')'].map Char.toNat
  let rest := if fold then cps.drop 4 else cps
  { s := if fold ∧ rest.head? = some ':'.toNat then rest.tail else rest
    fold := fold
    err := none
    overrun := countFrom 0 pattern + 1 < cps.length }

/-- The tree of a pattern, as `sch_regex_compile` parses it. -/
def regexTree (table : List UcProp) (pattern : Bytes) : Parsed :=
  let c := startCtx pattern
  ralternation table (c.s.length + 1) c

end Teptris
