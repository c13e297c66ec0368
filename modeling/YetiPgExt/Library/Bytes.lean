import Mathlib.Tactic

/-!
# Byte strings, little-endian fields and fixed buffers

A C program sees a value as bytes in a buffer: a field is stored at an offset, a fixed-width
integer is laid out least significant byte first, and a separator is looked for from the left.
This module has these three, over lists of bytes.

`decodeLE_encodeLE` says that a field of `w` bytes determines its value modulo `256 ^ w`, and
`encodeLE_decodeLE` that the bytes are those of the value; `Filled.store` fills a buffer from the
left, store by store; `memchr_eq_some_iff` and `memmem_eq_some_iff` say that a search returns the
leftmost occurrence.
-/

set_option autoImplicit false

namespace YetiPgExt.Library

/-- A string of bytes, as C code addresses it. -/
abbrev Bytes := List UInt8

/-- The bytes of a literal. -/
def ascii (s : String) : Bytes := s.toList.map fun c => UInt8.ofNat c.toNat

/-! ## Little-endian integers -/

/-- The `w` bytes of `n`, least significant first; higher bytes are dropped. -/
def encodeLE : Nat → Nat → Bytes
  | 0, _ => []
  | w + 1, n => UInt8.ofNat n :: encodeLE w (n / 256)

/-- The number with the given bytes, least significant first. -/
def decodeLE : Bytes → Nat
  | [] => 0
  | b :: bs => b.toNat + 256 * decodeLE bs

@[simp] theorem length_encodeLE (w n : Nat) : (encodeLE w n).length = w := by
  induction w generalizing n with
  | zero => rfl
  | succ w ih => rw [encodeLE, List.length_cons, ih]

theorem decodeLE_encodeLE (w n : Nat) : decodeLE (encodeLE w n) = n % 256 ^ w := by
  induction w generalizing n with
  | zero => simp [encodeLE, decodeLE, Nat.mod_one]
  | succ w ih =>
    have hbyte : (UInt8.ofNat n).toNat = n % 256 := UInt8.toNat_ofNat' (n := n)
    rw [encodeLE, decodeLE, hbyte, ih, Nat.pow_succ', Nat.mod_mul]

theorem decodeLE_encodeLE_of_lt {w n : Nat} (h : n < 256 ^ w) :
    decodeLE (encodeLE w n) = n := by
  rw [decodeLE_encodeLE, Nat.mod_eq_of_lt h]

theorem decodeLE_lt (bs : Bytes) : decodeLE bs < 256 ^ bs.length := by
  induction bs with
  | nil => simp [decodeLE]
  | cons b bs ih =>
    have hb : b.toNat < 256 := b.toNat_lt
    rw [decodeLE, List.length_cons, Nat.pow_succ]
    omega

/-- A byte string is the encoding, at its own length, of the number it decodes to. -/
theorem encodeLE_decodeLE (bs : Bytes) : encodeLE bs.length (decodeLE bs) = bs := by
  induction bs with
  | nil => rfl
  | cons b bs ih =>
    have hb : b.toNat < 256 := b.toNat_lt
    have hdiv : (b.toNat + 256 * decodeLE bs) / 256 = decodeLE bs := by omega
    have hhead : UInt8.ofNat (b.toNat + 256 * decodeLE bs) = b := by
      apply UInt8.toNat_inj.mp
      rw [UInt8.toNat_ofNat']
      omega
    rw [List.length_cons, decodeLE, encodeLE, hdiv, ih, hhead]

/-! ## Fixed buffers -/

/-- Store `bs` into `buf` from offset `off` on. -/
def store (buf : Bytes) (off : Nat) (bs : Bytes) : Bytes :=
  buf.take off ++ (bs ++ buf.drop (off + bs.length))

theorem length_store {buf bs : Bytes} {off : Nat} (h : off + bs.length ≤ buf.length) :
    (store buf off bs).length = buf.length := by
  simp only [store, List.length_append, List.length_take, List.length_drop]
  omega

/-- A buffer of `n` bytes that begins with `pre`. -/
structure Filled (buf : Bytes) (n : Nat) (pre : Bytes) : Prop where
  length_eq : buf.length = n
  take_eq : buf.take pre.length = pre

/-- A store right behind the filled part extends it. -/
theorem Filled.store {buf pre : Bytes} {n : Nat} (h : Filled buf n pre) (off : Nat) (bs : Bytes)
    (hoff : off = pre.length) (hfit : off + bs.length ≤ n) :
    Filled (store buf off bs) n (pre ++ bs) := by
  subst hoff
  have hlen : pre.length + bs.length ≤ buf.length := h.length_eq.symm ▸ hfit
  refine ⟨(length_store hlen).trans h.length_eq, ?_⟩
  rw [Library.store, h.take_eq, ← List.append_assoc, List.take_left' rfl]

/-- `len` bytes of `buf` from offset `off` on. -/
def slice (buf : Bytes) (off len : Nat) : Bytes := (buf.drop off).take len

theorem length_slice {buf : Bytes} {off len : Nat} (h : off + len ≤ buf.length) :
    (slice buf off len).length = len := by
  simp only [slice, List.length_take, List.length_drop]
  omega

/-- A slice that ends inside a prefix is a slice of the prefix. -/
theorem slice_append_of_le {d : Bytes} {off len : Nat} (h : off + len ≤ d.length) (z : Bytes) :
    slice (d ++ z) off len = slice d off len := by
  have hoff : off ≤ d.length := by omega
  have hlen : len ≤ (d.drop off).length := by
    rw [List.length_drop]
    omega
  rw [slice, slice, List.drop_append_of_le_length hoff, List.take_append_of_le_length hlen]

/-- A part of a byte string is the slice at its offset. -/
theorem slice_append (pre m post : Bytes) : slice (pre ++ m ++ post) pre.length m.length = m := by
  rw [slice, List.append_assoc, List.drop_left, List.take_left]

/-- The first byte comes off a slice. -/
theorem slice_succ {buf : Bytes} {off : Nat} (h : off < buf.length) (len : Nat) :
    slice buf off (len + 1) = buf[off] :: slice buf (off + 1) len := by
  rw [slice, List.drop_eq_getElem_cons h, List.take_succ_cons, slice]

theorem drop_slice (buf : Bytes) (off len k : Nat) :
    (slice buf off len).drop k = slice buf (off + k) (len - k) := by
  rw [slice, List.drop_take, List.drop_drop, slice]

theorem take_slice {len k : Nat} (h : k ≤ len) (buf : Bytes) (off : Nat) :
    (slice buf off len).take k = slice buf off k := by
  rw [slice, List.take_take, Nat.min_eq_left h, slice]

theorem getElem?_slice {buf : Bytes} {off len i : Nat} (h : i < len) :
    (slice buf off len)[i]? = buf[off + i]? := by
  rw [slice, List.getElem?_take_of_lt h, List.getElem?_drop]

/-- A field of a byte string is the encoding of its number. -/
theorem encodeLE_slice {d : Bytes} {off w : Nat} (h : off + w ≤ d.length) :
    encodeLE w (decodeLE (slice d off w)) = slice d off w := by
  have hround := encodeLE_decodeLE (slice d off w)
  rwa [length_slice h] at hround

theorem decodeLE_slice_lt {d : Bytes} {off w : Nat} (h : off + w ≤ d.length) :
    decodeLE (slice d off w) < 256 ^ w := by
  have hlt := decodeLE_lt (slice d off w)
  rwa [length_slice h] at hlt

/-! ## Searching from the left -/

/-- Position of the first byte `c`. -/
def memchr (c : UInt8) (s : Bytes) : Option Nat := s.findIdx? (· == c)

theorem memchr_cons (c b : UInt8) (s : Bytes) :
    memchr c (b :: s) = if b = c then some 0 else (memchr c s).map (· + 1) := by
  simp only [memchr, List.findIdx?_cons, beq_iff_eq]

theorem memchr_eq_none_iff {c : UInt8} {s : Bytes} : memchr c s = none ↔ c ∉ s := by
  simp only [memchr, List.findIdx?_eq_none_iff, beq_eq_false_iff_ne, ne_eq]
  constructor
  · intro h hc
    exact h c hc rfl
  · rintro h x hx rfl
    exact h hx

theorem memchr_eq_some_iff {c : UInt8} {s : Bytes} {i : Nat} :
    memchr c s = some i ↔ s[i]? = some c ∧ ∀ j < i, s[j]? ≠ some c := by
  rw [memchr, List.findIdx?_eq_some_iff_getElem]
  constructor
  · rintro ⟨hi, hc, hlt⟩
    refine ⟨?_, ?_⟩
    · rw [List.getElem?_eq_getElem hi]
      exact congrArg some (by simpa using hc)
    · intro j hj heq
      rw [List.getElem?_eq_getElem (by omega)] at heq
      exact hlt j hj (by simpa using heq)
  · rintro ⟨hc, hlt⟩
    obtain ⟨hi, hc⟩ := List.getElem?_eq_some_iff.mp hc
    refine ⟨hi, by simpa using hc, ?_⟩
    intro j hj heq
    apply hlt j hj
    rw [List.getElem?_eq_getElem (by omega)]
    exact congrArg some (by simpa using heq)

/-- A byte is first found where it was put, if it does not occur in front. -/
theorem memchr_append {c : UInt8} {s : Bytes} (h : c ∉ s) (rest : Bytes) :
    memchr c (s ++ c :: rest) = some s.length := by
  rw [memchr_eq_some_iff]
  refine ⟨by rw [List.getElem?_append_right (Nat.le_refl _), Nat.sub_self]; rfl, ?_⟩
  intro j hj hget
  rw [List.getElem?_append_left hj] at hget
  exact h (List.mem_of_getElem? hget)

/-- Position of the first occurrence of `pat`. -/
def memmem (pat : Bytes) : Bytes → Option Nat
  | [] => if pat = [] then some 0 else none
  | c :: s => if pat <+: c :: s then some 0 else (memmem pat s).map (· + 1)

theorem memmem_eq_some_iff {pat s : Bytes} {i : Nat} :
    memmem pat s = some i ↔ i ≤ s.length ∧ pat <+: s.drop i ∧ ∀ j < i, ¬ pat <+: s.drop j := by
  induction s generalizing i with
  | nil =>
    by_cases hp : pat = []
    · subst hp
      simp only [memmem, if_pos, Option.some.injEq]
      constructor
      · rintro rfl
        simp
      · rintro ⟨hi, -, -⟩
        exact (Nat.le_zero.mp hi).symm
    · simp [memmem, hp]
  | cons c s ih =>
    by_cases hp : pat <+: c :: s
    · simp only [memmem, if_pos hp, Option.some.injEq]
      constructor
      · rintro rfl
        simpa using hp
      · rintro ⟨-, -, hlt⟩
        by_contra hne
        exact hlt 0 (by omega) hp
    · -- no occurrence at the first byte: positions shift by one
      simp only [memmem, if_neg hp, Option.map_eq_some_iff, ih]
      constructor
      · rintro ⟨k, ⟨hk, hpre, hlt⟩, rfl⟩
        refine ⟨by simpa using hk, by simpa using hpre, ?_⟩
        rintro (_ | j) hj
        · exact hp
        · simpa using hlt j (by omega)
      · rintro ⟨hi, hpre, hlt⟩
        cases i with
        | zero => exact absurd hpre hp
        | succ k =>
          refine ⟨k, ⟨by simpa using hi, by simpa using hpre, ?_⟩, rfl⟩
          intro j hj
          simpa using hlt (j + 1) (by omega)

end YetiPgExt.Library
