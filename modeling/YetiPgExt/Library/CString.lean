import YetiPgExt.Library.Bytes

/-!
# C strings

What the C library does with a zero-terminated string in a buffer of known size. A function that
would read or write outside its buffer has no result (`none`), so a caller that never gets `none`
stays inside its buffers.
-/

set_option autoImplicit false

namespace YetiPgExt.Library

/-- The string at the start of a buffer: the bytes before the first zero, if there is one. -/
def cString? (buf : Bytes) : Option Bytes :=
  if 0 ∈ buf then some (buf.takeWhile (· ≠ 0)) else none

/-- `memset(buf, 0, n)` on a buffer of `n` bytes. -/
def zeros (n : Nat) : Bytes := List.replicate n 0

@[simp] theorem length_zeros (n : Nat) : (zeros n).length = n := List.length_replicate

/-- `memcpy(dst, src, |src|)`. -/
def memcpy (dst src : Bytes) : Option Bytes :=
  if src.length ≤ dst.length then some (store dst 0 src) else none

/-- `strncpy(dst, src, n)` of a string: at most `n` bytes of it, then zeros up to `n`. -/
def strncpy (dst src : Bytes) (n : Nat) : Option Bytes :=
  memcpy dst (src.take n ++ zeros (n - src.length))

theorem memcpy_eq {dst src : Bytes} (h : src.length ≤ dst.length) :
    memcpy dst src = some (src ++ dst.drop src.length) := by
  rw [memcpy, if_pos h, store, List.take_zero, Nat.zero_add, List.nil_append]

/-- A copy that stays inside the buffer: the bytes of the string, zeros, and the rest of the
buffer. -/
theorem strncpy_eq {dst : Bytes} {n : Nat} (src : Bytes) (h : n ≤ dst.length) :
    strncpy dst src n = some (src.take n ++ (zeros (n - src.length) ++ dst.drop n)) := by
  have hlen : (src.take n ++ zeros (n - src.length)).length = n := by
    rw [List.length_append, List.length_take, length_zeros]
    omega
  rw [strncpy, memcpy_eq (by rwa [hlen]), hlen, List.append_assoc]

theorem drop_zeros (m n : Nat) : (zeros n).drop m = zeros (n - m) := List.drop_replicate

/-- A copy into a cleared buffer leaves zeros behind. -/
theorem memcpy_zeros {src : Bytes} {n : Nat} (h : src.length ≤ n) :
    memcpy (zeros n) src = some (src ++ zeros (n - src.length)) := by
  rw [memcpy_eq (by rwa [length_zeros]), drop_zeros]

/-- As much of a string as fits, copied into a cleared buffer. -/
theorem strncpy_min (src : Bytes) (n : Nat) :
    strncpy (zeros n) src (min src.length n) = some (src.take n ++ zeros (n - src.length)) := by
  have hfit : min src.length n ≤ (zeros n).length := by
    rw [length_zeros]
    exact Nat.min_le_right _ _
  have hpad : min src.length n - src.length = 0 := Nat.sub_eq_zero_of_le (Nat.min_le_left _ _)
  have htake : src.take (min src.length n) = src.take n := by
    rw [Nat.min_comm, ← List.take_take, List.take_length]
  have hrest : n - min src.length n = n - src.length := by omega
  rw [strncpy_eq src hfit, hpad, htake, drop_zeros, hrest]
  rfl

theorem takeWhile_append_of_noZero {s : Bytes} (hs : 0 ∉ s) (rest : Bytes) :
    (s ++ rest).takeWhile (fun b => decide (b ≠ 0)) =
      s ++ rest.takeWhile (fun b => decide (b ≠ 0)) := by
  apply List.takeWhile_append_of_pos
  intro b hb
  rw [decide_eq_true_iff]
  rintro rfl
  exact hs hb

/-- A string is read back up to the first zero behind it. -/
theorem cString?_append {s rest : Bytes} (hs : 0 ∉ s) (hrest : rest.head? = some 0) :
    cString? (s ++ rest) = some s := by
  obtain ⟨tail, rfl⟩ := List.head?_eq_some_iff.mp hrest
  rw [cString?, if_pos (List.mem_append_right _ List.mem_cons_self), takeWhile_append_of_noZero hs,
    List.takeWhile_cons_of_neg (by decide), List.append_nil]

theorem takeWhile_append_zeros {s : Bytes} (hs : 0 ∉ s) (n : Nat) :
    (s ++ zeros n).takeWhile (fun b => decide (b ≠ 0)) = s := by
  rw [takeWhile_append_of_noZero hs]
  cases n with
  | zero => exact List.append_nil s
  | succ n =>
    rw [zeros, List.replicate_succ, List.takeWhile_cons_of_neg (by decide), List.append_nil]

/-- A string in a buffer that is zero behind it. -/
theorem cString?_zeros {s : Bytes} {n : Nat} (hs : 0 ∉ s) (hn : 0 < n) :
    cString? (s ++ zeros n) = some s := by
  apply cString?_append hs
  obtain ⟨n, rfl⟩ := Nat.exists_eq_succ_of_ne_zero (Nat.ne_of_gt hn)
  rfl

/-! ## Decimal integers -/

/-- `isspace` in the C locale. -/
def isSpace (b : UInt8) : Bool := b == 32 || (9 ≤ b && b ≤ 13)

def isDigit (b : UInt8) : Bool := 48 ≤ b && b ≤ 57

def digitsValue (ds : Bytes) : Nat := ds.foldl (fun n d => 10 * n + (d.toNat - 48)) 0

/-- The optional sign in front of a number, and what follows it. -/
def scanSign : Bytes → Int × Bytes
  | 45 :: s => (-1, s)
  | 43 :: s => (1, s)
  | s => (1, s)

/-- The longest leading decimal integer as a `long`, saturated at its range: what `strtol` and
`sscanf` with `%ld` read. `none` if there is no digit. -/
def scanLong (s : Bytes) : Option Int :=
  let (sign, s) := scanSign (s.dropWhile isSpace)
  let ds := s.takeWhile isDigit
  if ds = [] then none
  else some (max (-2 ^ 63) (min (2 ^ 63 - 1) (sign * digitsValue ds)))

/-- `atoi`: the number read by `strtol`, converted to `int`. -/
def atoi (s : Bytes) : Int := ((scanLong s).getD 0).bmod (2 ^ 32)

end YetiPgExt.Library
