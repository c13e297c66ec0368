import YetiPgExt.Library.CString

/-!
# `replace`

`replace_rand.c`: every placeholder `r(N)` in a text is replaced by `N` random digits. The scan
collects the placeholders in a cache that grows; the output is built from the cache. The values of
`rand_r` are arbitrary. An allocation does not fail.
-/

set_option autoImplicit false

namespace YetiPgExt.Regexp

open YetiPgExt.Library

/-- `RAND_START_1` -/
def randStart1 : UInt8 := 114
/-- `RAND_START_2` -/
def randStart2 : UInt8 := 40
/-- `RAND_START_LEN` -/
def randStartLen : Nat := 2
/-- `RAND_COMPLETED_MIN_LEN` -/
def randCompletedMinLen : Nat := 4
/-- `RAND_END` -/
def randEnd : UInt8 := 41

/-- `RAND_MIN_LEN` -/
def randMinLen : Int := 0
/-- `RAND_MAX_LEN` -/
def randMaxLen : Int := 64

/-- `CACHE_SIZE_INC_START` -/
def cacheSizeIncStart : Nat := 4
/-- `CACHE_SIZE_INC_SCALE` -/
def cacheSizeIncScale : Nat := 2
/-- `CACHE_SIZE_INC_MAX` -/
def cacheSizeIncMax : Nat := 64

/-- `replacing`: a placeholder from its first to its last byte. -/
structure Replacing where
  start : Nat
  stop : Nat
  value : Int
  deriving DecidableEq

/-- The cache: `n` is the number of its entries. -/
structure ReplacingCache where
  entries : List Replacing
  cSize : Nat
  cSizeInc : Nat
  deriving DecidableEq

def ReplacingCache.empty : ReplacingCache where
  entries := []
  cSize := 0
  cSizeInc := cacheSizeIncStart

/-- Room for one more entry. -/
def ReplacingCache.grow (c : ReplacingCache) : ReplacingCache :=
  if c.cSize < c.entries.length + 1 then
    { c with
      cSize := c.cSize + c.cSizeInc
      cSizeInc := min (c.cSizeInc * cacheSizeIncScale) cacheSizeIncMax }
  else c

def ReplacingCache.push (c : ReplacingCache) (ce : Replacing) : ReplacingCache :=
  { c.grow with entries := c.entries ++ [ce] }

/-- The length of a random string, in its bounds. -/
def clampValue (value : Int) : Int :=
  if value < randMinLen then randMinLen
  else if value > randMaxLen then randMaxLen
  else value

/-- The scan for placeholders from the offset `p` on. Each round moves `p` forward. -/
def scanPlaceholders (s : Bytes) : Nat → Nat → ReplacingCache → ReplacingCache
  | 0, _, c => c
  | fuel + 1, p, c =>
    match memchr randStart1 (s.drop p) with
    | none => c
    | some i =>
      let p2 := p + i
      if p2 + randCompletedMinLen > s.length then c
      else if s.getD (p2 + 1) 0 ≠ randStart2 then
        if p2 + 1 + randCompletedMinLen > s.length then c
        else scanPlaceholders s fuel (p2 + 1) c
      else
        match memchr randEnd (s.drop (p2 + randStartLen)) with
        | none =>
          if p2 + randStartLen + randCompletedMinLen > s.length then c
          else scanPlaceholders s fuel (p2 + randStartLen) c
        | some j =>
          let p3 := p2 + randStartLen + j
          -- what `sscanf` reads ends at the closing bracket at the latest
          match scanLong (s.drop (p2 + randStartLen)) with
          | none => scanPlaceholders s fuel p3 c
          | some value => scanPlaceholders s fuel p3 (c.push ⟨p2, p3, clampValue value⟩)

/-- The placeholders of a text. -/
def placeholders (s : Bytes) : List Replacing :=
  (scanPlaceholders s (s.length + 1) 0 .empty).entries

/-- The output size: a `size_t`. -/
def retLen (s : Bytes) (entries : List Replacing) : Nat :=
  let len := entries.foldl
    (fun (len : Int) (ce : Replacing) => len - (ce.stop - ce.start + 1) + ce.value) s.length
  (len % 2 ^ 64).toNat

/-- `n` random digits, behind `draws` others. -/
def randomDigits (rand : Nat → Nat) (draws n : Nat) : Bytes :=
  (List.range n).map fun k => UInt8.ofNat (48 + rand (draws + k) % 10)

/-- What is written to the output: from the offset `p` of the input on, behind `draws` digits. -/
def writeOutput (rand : Nat → Nat) (s : Bytes) : Nat → Nat → List Replacing → Bytes
  | p, _, [] => s.drop p
  | p, draws, ce :: entries =>
    slice s p (ce.start - p) ++ randomDigits rand draws ce.value.toNat ++
      writeOutput rand s (ce.stop + 1) (draws + ce.value.toNat) entries

/-- What `replace` returns, and its `replaced`. -/
structure Replaced where
  text : Bytes
  replaced : Bool
  deriving DecidableEq

/-- `replace`; bytes of the output that are not written are taken as zero. -/
def replace (rand : Nat → Nat) (s : Bytes) : Replaced :=
  let entries := placeholders s
  if entries.length = 0 then ⟨s, false⟩
  else
    let len := retLen s entries
    ⟨(writeOutput rand s 0 0 entries ++ zeros len).take len, true⟩

/-- A text without placeholders is returned as it is. -/
theorem replace_of_placeholders_eq_nil {s : Bytes} (h : placeholders s = []) (rand : Nat → Nat) :
    replace rand s = ⟨s, false⟩ := by
  have hlen : (placeholders s).length = 0 := List.length_eq_zero_iff.mpr h
  rw [replace, if_pos hlen]

end YetiPgExt.Regexp
