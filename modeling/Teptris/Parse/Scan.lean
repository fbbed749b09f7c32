import Teptris.Dom.Node
import Teptris.Library.Loop

/-!
# White space, comments and line ends

The skippers of `parser.c`: `tep_skip_ws`, `skip_comment`, `tep_skip_ws_nl`,
`tep_finish_line` and `skip_array_gap`, each from the rest of the input to what it leaves.
-/

namespace Teptris

open Loop

/-- `tep_skip_ws`. -/
def skipWs (r : Bytes) : Bytes := r.dropWhile isWs

/-- The `while` loop of `skip_comment`, behind the `#`. -/
def commentBody : Bytes → Except Diag Bytes
  | [] => .ok []
  | c :: cs =>
    if c = Ch.lf then .ok (c :: cs)
    else if c = Ch.cr then
      if cs.head? = some Ch.lf then .ok (c :: cs)
      else failAt (c :: cs) .errSyntax "lone carriage return in comment"
    else if isControl c then
      failAt (c :: cs) .errSyntax "control character in comment"
    else commentBody cs

/-- `skip_comment`, from the `#`. -/
def skipComment (r : Bytes) : Except Diag Bytes := commentBody (r.drop 1)

/-- One turn of `tep_skip_ws_nl`. -/
def skipWsNlTurn (r : Bytes) : Except Diag (Turn Bytes Bytes) :=
  match r with
  | [] => .ok (.stop [])
  | c :: cs =>
    if isWs c then .ok (.next cs)
    else if c = Ch.lf then .ok (.next cs)
    else if c = Ch.cr ∧ cs.head? = some Ch.lf then .ok (.next (cs.drop 1))
    else if c = Ch.hash then (skipComment (c :: cs)).map .next
    else .ok (.stop (c :: cs))

/-- `tep_skip_ws_nl`. -/
def skipWsNl (r : Bytes) : Except Diag Bytes := loop skipWsNlTurn Diag.stuck List.length r

/-- One turn of `skip_array_gap`. -/
def skipArrayGapTurn (r : Bytes) : Except Diag (Turn Bytes Bytes) :=
  match r.dropWhile isWs with
  | [] => .ok (.stop [])
  | c :: cs =>
    if c = Ch.lf then .ok (.next cs)
    else if c = Ch.hash then (skipWsNl (c :: cs)).map .stop
    else if c = Ch.cr then (skipWsNl (c :: cs)).map .stop
    else .ok (.stop (c :: cs))

/-- `skip_array_gap`. -/
def skipArrayGap (r : Bytes) : Except Diag Bytes :=
  loop skipArrayGapTurn Diag.stuck List.length r

/-- The end of a line behind white space and comment, in `tep_finish_line`. -/
def lineEnd (r : Bytes) : Except Diag Bytes :=
  match r with
  | [] => .ok []
  | c :: cs =>
    if c = Ch.lf then .ok cs
    else if c = Ch.cr ∧ cs.head? = some Ch.lf then .ok (cs.drop 1)
    else failAt (c :: cs) .errSyntax "expected newline after value"

/-- `tep_finish_line`. -/
def finishLine (r : Bytes) : Except Diag Bytes :=
  let r := skipWs r
  if r.head? = some Ch.hash then
    match skipComment r with
    | .error e => .error e
    | .ok r => lineEnd r
  else lineEnd r

end Teptris
