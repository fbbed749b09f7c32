import Teptris.Parse.DateTime
import Teptris.Parse.Number
import Teptris.Parse.Table

/-!
# Values and key/value pairs

`teptris_parse_value` and `teptris_parse_value_fast`, arrays and inline tables, and the
key/value routines `try_keyval_fast` and `parse_keyval`.  Nesting is counted downwards: `levels`
is what `max_depth` leaves at the current depth.
-/

namespace Teptris

open Loop

/-- What a parse depends on besides its input: the options, and the conversions of doubles. -/
structure Config where
  /-- The conversions between doubles and decimal text. -/
  fc : FloatConv
  /-- `max_depth`; the option 0 stands for 512, so it is never 0 here. -/
  maxDepth : ℕ
  /-- There is a level for the members of the root. -/
  maxDepth_pos : 0 < maxDepth

/-- The effective options: `teptris_parse` reads 0 as 512. -/
def Config.ofOptions (fc : FloatConv) (maxDepth : UInt32) : Config :=
  if h : maxDepth = 0 then ⟨fc, 512, by decide⟩
  else ⟨fc, maxDepth.toNat, by
    have : maxDepth.toNat ≠ 0 := fun h0 => h (UInt32.toNat_inj.mp h0)
    omega⟩

/-! ## Scalars and dispatch -/

/-- `teptris_parse_value`, given the routines for arrays and inline tables. -/
def valueDispatch (fc : FloatConv) (array inline : Bytes → Res Node) (r : Bytes) : Res Node :=
  match r with
  | [] => failAt [] .errSyntax "expected value"
  | c :: _ =>
    if c = Ch.dquote ∨ c = Ch.squote then parseString r
    else if c = Ch.lbrack then array r
    else if c = Ch.lbrace then inline r
    else if c = 0x74 then (expectWord wTrue r).map fun r => (.boolean true, r)
    else if c = 0x66 then (expectWord wFalse r).map fun r => (.boolean false, r)
    else if c = 0x69 ∨ c = 0x6E then parseNumber fc false r
    else if c = Ch.plus ∨ c = Ch.minus then parseNumber fc true r
    else if datetimeLookahead r then parseDatetime r
    else if isDec c then parseNumber fc false r
    else failAt r .errSyntax "expected value"

/-- `teptris_parse_value_fast`, given `teptris_parse_value`. -/
def valueFast (fc : FloatConv) (value : Bytes → Res Node) (r : Bytes) : Res Node :=
  match r with
  | [] => value []
  | c :: _ =>
    if isDec c then
      if datetimeLookahead r then parseDatetime r
      else
        let ds := r.takeWhile isDec
        let q := r.dropWhile isDec
        if ds.length ≤ 18 ∧ c ≠ Ch.zero ∧ ¬ (atFloatMark q ∨ q.head? = some Ch.under) then
          .ok (.integer (Int64.ofNat (decVal ds)), q)
        else parseNumber fc false r
    else value r

/-! ## Key/value pairs -/

/-- `try_keyval_fast` into the table `t`, given the value routine; `none` hands back. -/
def tryKeyvalFast (curPath : Bytes) (value : Bytes → Res Node) (t : Entries) (r : Bytes) :
    Option (Res Entries) :=
  if r.head?.any isBareKey then
    let (key, q) := scanBareKey r
    let q := skipWs q
    if q.head? = some Ch.eq then
      match value (skipWs (q.drop 1)) with
      | .error e => some (.error e)
      | .ok (v, q) =>
        match probe key t with
        | some _ =>
          if 0 < curPath.length then
            some (failNaming q .errSemantic "duplicate key '%.*s' in table '%.*s'"
              [key.bytes, curPath])
          else some (failNaming q .errSemantic "duplicate key '%.*s'" [key.bytes])
        | none => some (.ok (insert t key v, q))
    else none
  else none

/-- The general route of a key/value pair into the table `t`, given the value routine. -/
def keyvalGeneral (maxDepth : ℕ) (value : Bytes → Res Node) (t : Entries) (r : Bytes) :
    Res Entries :=
  match parseKeyPath maxDepth r with
  | .error e => .error e
  | .ok (path, r) =>
    let r := skipWs r
    if r.head? = some Ch.eq then
      match value (skipWs (r.drop 1)) with
      | .error e => .error e
      | .ok (v, r) =>
        match insertDotted r path v path.parents t with
        | .error e => .error e
        | .ok t => .ok (t, r)
    else failAt r .errSyntax "expected '=' after key"

/-- A key/value pair: the fast route, and the general one where it hands back. -/
def keyval (curPath : Bytes) (maxDepth : ℕ) (fast general : Bytes → Res Node) (t : Entries)
    (r : Bytes) : Res Entries :=
  match tryKeyvalFast curPath fast t r with
  | some res => res
  | none => keyvalGeneral maxDepth general t r

/-! ## Arrays and inline tables -/

/-- One turn of the member loops of `teptris_parse_array` and `teptris_parse_inline`: the
members so far, and the rest of the input. -/
def memberTurn {α : Type} (close : UInt8) (unterminated expected : String)
    (member : α → Bytes → Res α) (s : α × Bytes) : Except Diag (Turn (α × Bytes) (α × Bytes)) :=
  match skipArrayGap s.2 with
  | .error e => .error e
  | .ok [] => failAt [] .errSyntax unterminated
  | .ok (c :: cs) =>
    if c = close then .ok (.stop (s.1, cs))
    else
      match member s.1 (c :: cs) with
      | .error e => .error e
      | .ok (a, r) =>
        match skipArrayGap r with
        | .error e => .error e
        | .ok r =>
          if r.head? = some Ch.comma then .ok (.next (a, r.drop 1))
          else if r.head? = some close then .ok (.stop (a, r.drop 1))
          else failAt r .errSyntax expected

/-- A member loop from the member list `a`. -/
def members {α : Type} (close : UInt8) (unterminated expected : String)
    (member : α → Bytes → Res α) (a : α) (r : Bytes) : Res α :=
  loop (memberTurn close unterminated expected member) Diag.stuck (fun s => s.2.length) (a, r)

/-- One element of an array. -/
def arrayMember (value : Bytes → Res Node) (items : List Node) (r : Bytes) : Res (List Node) :=
  match value r with
  | .error e => .error e
  | .ok (v, r) => .ok (items ++ [v], r)

/-- `teptris_parse_array` past its depth gate, from the `[`. -/
def arrayBody (value : Bytes → Res Node) (r : Bytes) : Res Node :=
  match members Ch.rbrack "unterminated array" "expected ',' or ']'" (arrayMember value) []
    (r.drop 1) with
  | .error e => .error e
  | .ok (items, r) => .ok (.array false items, r)

/-- `teptris_parse_inline` past its depth gate, from the `{`. -/
def inlineBody (member : Entries → Bytes → Res Entries) (r : Bytes) : Res Node :=
  match members Ch.rbrace "unterminated inline table" "expected ',' or '\x7d'" member []
    (r.drop 1) with
  | .error e => .error e
  | .ok (es, r) => .ok (.table .inline es, r)

/-- The depth gate of `teptris_parse_array` and `teptris_parse_inline`, closed. -/
def tooDeep (r : Bytes) : Res Node := failAt (r.drop 1) .errDepth "nesting too deep"

/-- `teptris_parse_value` with that many levels of nesting left. -/
def parseValue (cfg : Config) (curPath : Bytes) : ℕ → Bytes → Res Node
  | 0 => valueDispatch cfg.fc tooDeep tooDeep
  | levels + 1 =>
    let value := parseValue cfg curPath levels
    let fast := valueFast cfg.fc value
    valueDispatch cfg.fc (arrayBody fast) (inlineBody (keyval curPath cfg.maxDepth fast value))

/-- `teptris_parse_value_fast` with that many levels of nesting left. -/
def parseValueFast (cfg : Config) (curPath : Bytes) (levels : ℕ) : Bytes → Res Node :=
  valueFast cfg.fc (parseValue cfg curPath levels)

/-- `parse_keyval` into the open table `t`. -/
def parseKeyval (cfg : Config) (curPath : Bytes) (t : Entries) (r : Bytes) : Res Entries :=
  keyval curPath cfg.maxDepth (parseValueFast cfg curPath cfg.maxDepth)
    (parseValue cfg curPath cfg.maxDepth) t r

end Teptris
