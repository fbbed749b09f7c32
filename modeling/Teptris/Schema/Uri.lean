import Teptris.Parse.DateTime
import Teptris.Schema.Value

/-!
# References and their bases

The text side of `refs.c`.  Texts are C strings without their NUL; a base is an address that may
be `NULL`, and reading through it then is a fault.
-/

namespace Teptris

/-! ## Bytes of a text -/

/-- `TEPTRIS_URI_MAX`. -/
def uriMax : ℕ := 1024

/-- `snprintf(out, cap, "%s", s)`. -/
def snprint (cap : ℕ) (s : Bytes) : Bytes := s.take (cap - 1)

/-- `strncmp(s, text, strlen(text)) == 0`. -/
def startsWith (s : Bytes) (text : String) : Bool := (ascii text).isPrefixOf s

/-- `strrchr(s, '/')`, as a place. -/
def lastSlash (s : Bytes) : Option ℕ :=
  (s.reverse.findIdx? (· == 0x2F)).map fun i => s.length - 1 - i

/-- `strstr`, as a place. -/
def findText (text : Bytes) : Bytes → Option ℕ
  | [] => if text = [] then some 0 else none
  | ch :: s =>
    if text.isPrefixOf (ch :: s) then some 0 else (findText text s).map (· + 1)

/-- The letters a scheme begins with. -/
def isSchemeAlpha (c : UInt8) : Bool := (0x61 ≤ c && c ≤ 0x7A) || (0x41 ≤ c && c ≤ 0x5A)

/-- The bytes a scheme goes on with. -/
def isSchemeByte (c : UInt8) : Bool :=
  isSchemeAlpha c || (0x30 ≤ c && c ≤ 0x39) || c == 0x2B || c == 0x2D || c == 0x2E

/-- A reference that begins with a scheme and a colon stands alone. -/
def hasScheme (ref : Bytes) : Bool :=
  ref.head?.any isSchemeAlpha && (ref.dropWhile isSchemeByte).head? == some 0x3A

/-- A text in the network space. -/
def isHttp (s : Bytes) : Bool := startsWith s "http://" || startsWith s "https://"

/-! ## Dot segments -/

/-- The C string at a place of a buffer. -/
def stringAt (buf : Bytes) (i : ℕ) : Bytes := cstr (buf.drop i)

/-- The segment at a place of a buffer, with the slash behind it. -/
def segmentAt (buf : Bytes) (r : ℕ) : Bytes :=
  let seg := (stringAt buf r).takeWhile (· != 0x2F)
  if byteAt buf (r + seg.length) = 0x2F then seg ++ [0x2F] else seg

/-- What a `../` does to the buffer: it looks for a slash from the place that is written next. -/
def popSegment (buf : Bytes) (w : ℕ) : Bytes :=
  match (lastSlash (stringAt buf w)).map (w + ·) with
  | none => buf.set w 0
  | some 0 => buf.set 1 0
  | some slash => buf.set slash 0

/-- The loop of `remove_dot_segments`, with the places it writes and reads. -/
def removeDotLoop : ℕ → Bytes → ℕ → ℕ → Bytes
  | 0, buf, w, _ => buf.take w
  | n + 1, buf, w, r =>
    if byteAt buf r = 0 then buf.take w
    else if byteAt buf r = 0x2E ∧ byteAt buf (r + 1) = 0x2F then removeDotLoop n buf w (r + 2)
    else if byteAt buf r = 0x2E ∧ byteAt buf (r + 1) = 0x2E ∧ byteAt buf (r + 2) = 0x2F then
      removeDotLoop n (popSegment buf w) w (r + 3)
    else
      let seg := segmentAt buf r
      removeDotLoop n (buf.take w ++ seg ++ buf.drop (w + seg.length)) (w + seg.length)
        (r + seg.length)

/-- `remove_dot_segments`; every round of the loop reads at least one byte. -/
def removeDotSegments (path : Bytes) : Bytes := removeDotLoop (path.length + 1) path 0 0

/-! ## Joining -/

/-- What goes wrong in a compile: a base that is absent is read. -/
inductive Fault where
  /-- A read through a `NULL` base. -/
  | nullBase
deriving DecidableEq

/-- The length of the scheme and the authority of a base in the network space. -/
def authorityEnd (base : Bytes) : ℕ :=
  let auth := (findText (ascii "://") base).getD 0 + 3
  auth + ((base.drop auth).takeWhile (· != 0x2F)).length

/-- `uri_dir`, of a base that is there. -/
def uriDir (base : Bytes) (cap : ℕ) : Bytes :=
  match lastSlash base with
  | none => snprint cap base
  | some slash => base.take (min (slash + 1) (cap - 1))

/-- A reference without its fragment. -/
def pathPart (ref : Bytes) : Bytes := ref.takeWhile (· != 0x23)

/-- The reference begins with a slash. -/
def joinAbsolute (base ref : Bytes) (cap : ℕ) : Option Bytes :=
  if isHttp base then
    if cap ≤ authorityEnd base ∨ cap ≤ ref.length + authorityEnd base + 1 then none
    else some (base.take (authorityEnd base) ++ ref)
  else some (snprint cap (ascii "file://" ++ removeDotSegments (snprint uriMax ref)))

/-- The reference is merged in the network space. -/
def joinHttp (base ref : Bytes) (cap : ℕ) : Option Bytes := do
  let auth ← findText (ascii "://") base
  let slash ← (lastSlash (base.drop (auth + 3))).map (auth + 3 + ·)
  if cap ≤ slash + 1 ∨ uriMax ≤ (pathPart ref).length ∨
      cap < slash + 1 + (pathPart ref).length + 1 then none
  else some (base.take (slash + 1) ++ removeDotSegments (pathPart ref))

/-- The reference is merged with the directory of a file. -/
def joinFile (base ref : Bytes) (cap : ℕ) : Option Bytes :=
  let dir := uriDir base uriMax
  if cap ≤ dir.length ∨ uriMax ≤ (pathPart ref).length ∨
      cap < dir.length + (pathPart ref).length + 1 then none
  else
    let out := dir ++ pathPart ref
    some (if startsWith out "file://" then out.take 7 ++ removeDotSegments (out.drop 7) else out)

/-- `teptris_uri_join`, of a reference that is there. -/
def uriJoin (base : Option Bytes) (ref : Bytes) (cap : ℕ) : Except Fault (Option Bytes) :=
  if isHttp ref then .ok none
  else if hasScheme ref then .ok (some (snprint cap ref))
  else if startsWith ref "file://" then .ok (some (snprint cap ref))
  else if ref.head? = some 0x2F then
    match base with
    | none => .error .nullBase
    | some base => .ok (joinAbsolute base ref cap)
  else
    match base with
    | none => .ok none
    | some base =>
      if base = [] then .ok none
      else if isHttp base then .ok (joinHttp base ref cap)
      else if startsWith base "file://" then .ok (joinFile base ref cap)
      else .ok (some (snprint cap ref))

/-- `teptris_uri_split`: the document part and the fragment. -/
def uriSplit (uri : Bytes) : Bytes × Bytes :=
  (snprint uriMax (pathPart uri), snprint uriMax ((uri.dropWhile (· != 0x23)).drop 1))

/-- `teptris_file_uri_to_path`. -/
def fileUriToPath (uri : Bytes) : Bytes :=
  if startsWith uri "file://" then snprint uriMax (uri.drop 7) else snprint uriMax uri

/-- The directory of a path, with its slash. -/
def dirOfPath (path : Bytes) : Bytes := path.take ((lastSlash path).elim 0 (· + 1))

end Teptris
