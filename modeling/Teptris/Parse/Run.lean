import Teptris.Parse.Header

/-!
# Whole documents

`teptris_parser_run`: the UTF-8 check, the byte order mark, and the loop over the lines; and
`teptris_parse` over it.
-/

namespace Teptris

open Loop

/-! ## UTF-8 -/

/-- The eight-byte steps over bytes below `0x80`. -/
def skipAsciiWords : Bytes → Bytes
  | c0 :: c1 :: c2 :: c3 :: c4 :: c5 :: c6 :: c7 :: cs =>
    if [c0, c1, c2, c3, c4, c5, c6, c7].all (· < 0x80) then skipAsciiWords cs
    else c0 :: c1 :: c2 :: c3 :: c4 :: c5 :: c6 :: c7 :: cs
  | cs => cs

/-- A lead byte: the number of continuation bytes, and its share of the code point. -/
def utf8Lead (c : UInt8) : Option (ℕ × ℕ) :=
  if c &&& 0xE0 = 0xC0 then some (1, (c &&& 0x1F).toNat)
  else if c &&& 0xF0 = 0xE0 then some (2, (c &&& 0x0F).toNat)
  else if c &&& 0xF8 = 0xF0 then some (3, (c &&& 0x07).toNat)
  else none

/-- That many continuation bytes, added to the code point. -/
def utf8Cont : ℕ → ℕ → Bytes → Option (ℕ × Bytes)
  | 0, cp, r => some (cp, r)
  | _ + 1, _, [] => none
  | need + 1, cp, c :: cs =>
    if c &&& 0xC0 = 0x80 then utf8Cont need (cp <<< 6 ||| (c &&& 0x3F).toNat) cs else none

/-- The least code point with that many continuation bytes. -/
def utf8Min (need : ℕ) : ℕ := [0x80, 0x800, 0x10000].getD (need - 1) 0

/-- The sequence behind a byte from `0x80` on: what follows it, or `none` where it is invalid. -/
def utf8Multi (c : UInt8) (cs : Bytes) : Option Bytes :=
  match utf8Lead c with
  | none => none
  | some (need, cp) =>
    match utf8Cont need cp cs with
    | none => none
    | some (cp, r) =>
      if cp < utf8Min need ∨ (0xD800 ≤ cp ∧ cp ≤ 0xDFFF) ∨ 0x10FFFF < cp then none else some r

/-- One turn of `utf8_invalid_at`; a failure is what is left at the invalid sequence. -/
def utf8Turn (r : Bytes) : Except Bytes (Turn Bytes Unit) :=
  match skipAsciiWords r with
  | [] => .ok (.stop ())
  | c :: cs =>
    if c < 0x80 then .ok (.next cs)
    else match utf8Multi c cs with
      | none => .error (c :: cs)
      | some r => .ok (.next r)

/-- `validate_utf8`. -/
def validateUtf8 (data : Bytes) : Except Diag Unit :=
  (loop utf8Turn [] List.length data).mapError
    fun pos => ⟨.errEncoding, pos, "invalid UTF-8 sequence", []⟩

/-! ## The line loop -/

/-- A key/value line in the main loop. -/
def keyvalLine (cfg : Config) (s : PState) : Except Diag PState :=
  match parseKeyval cfg s.curPath (entriesAt s.cur s.root) s.rest with
  | .error e => .error e
  | .ok (es, r) => .ok { s with root := setEntriesAt es s.cur s.root, rest := r }

/-- A statement and the end of its line. -/
def statement (cfg : Config) (c : UInt8) (s : PState) : Except Diag PState :=
  match if c = Ch.lbrack then headerLine cfg s else keyvalLine cfg s with
  | .error e => .error e
  | .ok s =>
    match finishLine s.rest with
    | .error e => .error e
    | .ok r => .ok { s with rest := r }

/-- One turn of the loop of `teptris_parser_run`. -/
def lineTurn (cfg : Config) (s : PState) : Except Diag (Turn PState Entries) :=
  match skipWs s.rest with
  | [] => .ok (.stop s.root)
  | c :: cs =>
    if c = Ch.lf then .ok (.next { s with rest := cs })
    else if c = Ch.cr then
      if cs.head? = some Ch.lf then .ok (.next { s with rest := cs.drop 1 })
      else failAt (c :: cs) .errSyntax "lone carriage return"
    else if c = Ch.hash then
      (skipComment (c :: cs)).map fun r => .next { s with rest := r }
    else (statement cfg c { s with rest := c :: cs }).map .next

/-- The loop of `teptris_parser_run`, from any state. -/
def lines (cfg : Config) (s : PState) : Except Diag Entries :=
  loop (lineTurn cfg) Diag.stuck (fun s => s.rest.length) s

/-- The byte order mark the parser skips. -/
abbrev bom : Bytes := [0xEF, 0xBB, 0xBF]

/-- The input behind a byte order mark. -/
def skipBom (data : Bytes) : Bytes := if bom <+: data then data.drop 3 else data

/-- The state at the first line. -/
def PState.init (data : Bytes) : PState := ⟨data, [], [], []⟩

/-- `teptris_parser_run`: the entries of the root table. -/
def parserRun (cfg : Config) (data : Bytes) : Except Diag Entries :=
  match validateUtf8 data with
  | .error e => .error e
  | .ok () => lines cfg (PState.init (skipBom data))

/-- `teptris_parse`: the root table. -/
def parse (cfg : Config) (data : Bytes) : Except Diag Node :=
  (parserRun cfg data).map (.table .explicit)

end Teptris
