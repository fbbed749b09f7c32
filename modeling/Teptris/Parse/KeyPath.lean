import Teptris.Parse.Scan
import Teptris.Parse.Str

/-!
# Key paths

`keys.c`: dotted key paths.  A path has at least one part; it is kept as the parts before the
last one and the last one, the way its readers walk it.
-/

namespace Teptris

open Loop

/-- A dotted key path. -/
structure KeyPath where
  /-- The parts before the last one. -/
  parents : List Key
  /-- The last part. -/
  last : Key
deriving DecidableEq

namespace KeyPath

/-- The parts in order. -/
def parts (p : KeyPath) : List Key := p.parents ++ [p.last]

/-- The number of parts. -/
def count (p : KeyPath) : ℕ := p.parents.length + 1

/-- A part in front. -/
def cons (k : Key) (p : KeyPath) : KeyPath := ⟨k :: p.parents, p.last⟩

@[simp] lemma length_parts (p : KeyPath) : p.parts.length = p.count := by
  simp [parts, count]

@[simp] lemma parts_cons (k : Key) (p : KeyPath) : (p.cons k).parts = k :: p.parts := rfl

@[simp] lemma count_cons (k : Key) (p : KeyPath) : (p.cons k).count = p.count + 1 := rfl

end KeyPath

/-- One part of a key path. -/
def keyPart (r : Bytes) : Res Bytes :=
  match r with
  | [] => failAt [] .errSyntax "expected key"
  | c :: _ =>
    if c = Ch.dquote ∨ c = Ch.squote then quotedKey r
    else if isBareKey c then .ok (r.takeWhile isBareKey, r.dropWhile isBareKey)
    else failAt r .errSyntax "expected key (bare or quoted)"

/-- One turn of `teptris_parse_key_path`: the parts read so far, and the rest of the input. -/
def keyPathTurn (maxDepth : ℕ) (s : List Key × Bytes) :
    Except Diag (Turn (List Key × Bytes) (KeyPath × Bytes)) :=
  match keyPart (skipWs s.2) with
  | .error e => .error e
  | .ok (key, r) =>
    if maxDepth < s.1.length + 1 then failAt r .errDepth "key path too deep"
    else
      let r := skipWs r
      if r.head? = some Ch.dot then .ok (.next (s.1 ++ [Key.ofBytes key], r.drop 1))
      else .ok (.stop (⟨s.1, Key.ofBytes key⟩, r))

/-- `teptris_parse_key_path`. -/
def parseKeyPath (maxDepth : ℕ) (r : Bytes) : Res KeyPath :=
  loop (keyPathTurn maxDepth) Diag.stuck (fun s => s.2.length) ([], r)

/-! ## The hash fused into the scan -/

/-- The scan of a bare key that updates the hash at every byte. -/
def fnvScan (h : UInt64) : Bytes → Bytes × UInt64 × Bytes
  | [] => ([], h, [])
  | c :: cs =>
    if isBareKey c then
      let (key, h, r) := fnvScan (fnvStep h c) cs
      (c :: key, h, r)
    else ([], h, c :: cs)

/-- The fused scan is the scan, and the hash of what was scanned. -/
lemma fnvScan_eq (h : UInt64) (r : Bytes) :
    fnvScan h r =
      (r.takeWhile isBareKey, (r.takeWhile isBareKey).foldl fnvStep h, r.dropWhile isBareKey) := by
  induction r generalizing h with
  | nil => rfl
  | cons c cs ih =>
    by_cases hc : isBareKey c = true
    · simp [fnvScan, hc, ih]
    · simp [fnvScan, hc]

/-- A bare key with the hash its scan computed, and what follows it. -/
def scanBareKey (r : Bytes) : Key × Bytes :=
  (⟨(fnvScan fnvBasis r).1, (fnvScan fnvBasis r).2.1, by simp only [fnvScan_eq, keyHash]⟩,
    (fnvScan fnvBasis r).2.2)

/-- The key of the fused scan is the one a separate hash pass gives. -/
@[simp] lemma scanBareKey_eq (r : Bytes) :
    scanBareKey r = (Key.ofBytes (r.takeWhile isBareKey), r.dropWhile isBareKey) := by
  refine Prod.ext (Key.ext ?_) ?_
  · simp [scanBareKey, fnvScan_eq]
  · simp [scanBareKey, fnvScan_eq]

end Teptris
