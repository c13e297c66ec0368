import YetiPgExt.Regexp.ScanSpans

/-!
# What `replace` makes of the spans

The cache has room for every span that is stored in it, the output has the size that was computed
for it, and it is the input with digits in the place of the spans (`Expanded`):
`replace_consistent`.
-/

set_option autoImplicit false

namespace YetiPgExt.Regexp

open YetiPgExt.Library

/-! ## The cache -/

/-- The entries lie inside the cache, which can grow. -/
structure ReplacingCache.Valid (c : ReplacingCache) : Prop where
  fits : c.entries.length ≤ c.cSize
  inc_pos : 0 < c.cSizeInc

theorem ReplacingCache.valid_empty : ReplacingCache.Valid .empty := ⟨Nat.le_refl _, by decide⟩

theorem ReplacingCache.Valid.grow {c : ReplacingCache} (h : c.Valid) :
    c.entries.length < c.grow.cSize ∧ 0 < c.grow.cSizeInc := by
  have hfits := h.fits
  have hinc := h.inc_pos
  rw [ReplacingCache.grow]
  split
  · have hscale : cacheSizeIncScale = 2 := rfl
    have hmax : cacheSizeIncMax = 64 := rfl
    refine ⟨?_, ?_⟩
    · show c.entries.length < c.cSize + c.cSizeInc
      omega
    · show 0 < min (c.cSizeInc * cacheSizeIncScale) cacheSizeIncMax
      rw [hscale, hmax]
      omega
  · rename_i hroom
    exact ⟨by omega, hinc⟩

theorem ReplacingCache.Valid.push {c : ReplacingCache} (h : c.Valid) (ce : Replacing) :
    (c.push ce).Valid := by
  refine ⟨?_, h.grow.2⟩
  show (c.entries ++ [ce]).length ≤ c.grow.cSize
  rw [List.length_append, List.length_singleton]
  exact h.grow.1

/-- The cache before the store of the span at a position. -/
def cacheAfter (spans : List Replacing) (k : Nat) : ReplacingCache :=
  (spans.take k).foldl ReplacingCache.push .empty

theorem valid_foldl_push (spans : List Replacing) {c : ReplacingCache} (h : c.Valid) :
    (spans.foldl ReplacingCache.push c).Valid := by
  induction spans generalizing c with
  | nil => exact h
  | cons ce spans ih => exact ih (h.push ce)

/-- A span is stored behind the others, below the capacity. -/
theorem store_lt_capacity {spans : List Replacing} {k : Nat} (hk : k < spans.length) :
    (cacheAfter spans k).entries.length = k ∧ k < (cacheAfter spans k).grow.cSize := by
  have hlen : (cacheAfter spans k).entries.length = k := by
    rw [cacheAfter, entries_foldl_push, List.length_append, List.length_take,
      Nat.min_eq_left (Nat.le_of_lt hk)]
    exact Nat.zero_add k
  have hgrow := (valid_foldl_push (spans.take k) ReplacingCache.valid_empty).grow.1
  refine ⟨hlen, ?_⟩
  rw [← cacheAfter, hlen] at hgrow
  exact hgrow

/-! ## The order of the spans -/

/-- The spans lie behind one another, with bounded values. -/
inductive Ordered (s : Bytes) : Nat → List Replacing → Prop where
  | nil {p : Nat} : Ordered s p []
  | cons {p : Nat} {ce : Replacing} {spans : List Replacing} : p ≤ ce.start →
      ce.start + randStartLen ≤ ce.stop → ce.stop < s.length →
      0 ≤ ce.value → ce.value ≤ randMaxLen →
      Ordered s (ce.stop + 1) spans → Ordered s p (ce :: spans)

/-- The spans from an offset on are ordered, also from one further on if nothing opens before
that. -/
theorem Scan.ordered {s : Bytes} {p : Nat} {spans : List Replacing} (h : Scan s p spans) (q : Nat)
    (hq : ∀ a, p ≤ a → Opens s a → q ≤ a) : Ordered s q spans := by
  induction h generalizing q with
  | done _ => exact Ordered.nil
  | @kept p a e v spans hcand _ _ ih =>
    have hbounds : 0 ≤ max 0 (min 64 v) ∧ max 0 (min 64 v) ≤ randMaxLen := by
      rw [randMaxLen]
      omega
    apply Ordered.cons (hq a hcand.le hcand.opens) hcand.lt.1 hcand.ends.lt_length hbounds.1
      hbounds.2
    apply ih
    intro b hb hopens
    -- the closing bracket itself opens nothing
    have hne : e ≠ b := by
      rintro rfl
      have hstart := hopens.start1
      rw [hcand.ends.at_end] at hstart
      exact absurd (Option.some.inj hstart) (by decide)
    exact Nat.lt_of_le_of_ne hb hne
  | rejected hcand _ _ ih =>
    apply ih
    intro b hb hopens
    exact hq b (Nat.le_trans (Nat.le_of_lt hcand.lt.2) hb) hopens

theorem ordered_placeholders (s : Bytes) : Ordered s 0 (placeholders s) :=
  (scan_placeholders s).1.ordered 0 fun _ _ _ => Nat.zero_le _

theorem Ordered.le_start {s : Bytes} {p : Nat} {spans : List Replacing} (h : Ordered s p spans) :
    ∀ ce ∈ spans, p ≤ ce.start ∧ ce.start < ce.stop ∧ ce.stop < s.length := by
  have hlen : randStartLen = 2 := rfl
  induction h with
  | nil =>
    intro ce hce
    cases hce
  | cons hle hspan hinside _ _ _ ih =>
    intro ce hce
    rcases List.mem_cons.mp hce with rfl | hce
    · exact ⟨hle, by omega, hinside⟩
    · obtain ⟨hstart, hrest⟩ := ih ce hce
      exact ⟨by omega, hrest⟩

/-- The spans are disjoint and increasing. -/
theorem Ordered.pairwise {s : Bytes} {p : Nat} {spans : List Replacing} (h : Ordered s p spans) :
    spans.Pairwise (fun a b => a.stop < b.start) := by
  induction h with
  | nil => exact List.Pairwise.nil
  | cons _ _ _ _ _ hrest ih =>
    apply List.Pairwise.cons _ ih
    intro ce hce
    exact (hrest.le_start ce hce).1

/-! ## The output -/

/-- The output for the part of the input from an offset on: the bytes between the spans are kept,
and a span becomes as many decimal digits as its value says. -/
inductive Expanded : Nat → Bytes → List Replacing → Bytes → Prop where
  | rest {p : Nat} {bytes : Bytes} : Expanded p bytes [] bytes
  | span {p : Nat} {ce : Replacing} {between span digits bytes out : Bytes}
      {spans : List Replacing} : ce.start = p + between.length →
      ce.stop + 1 = ce.start + span.length → (digits.length : Int) = ce.value →
      (∀ d ∈ digits, isDigit d = true) → Expanded (ce.stop + 1) bytes spans out →
      Expanded p (between ++ (span ++ bytes)) (ce :: spans) (between ++ (digits ++ out))

theorem randomDigits_spec (rand : Nat → Nat) (draws n : Nat) :
    (randomDigits rand draws n).length = n ∧ ∀ d ∈ randomDigits rand draws n, isDigit d = true := by
  constructor
  · rw [randomDigits, List.length_map, List.length_range]
  · intro d hd
    obtain ⟨k, -, rfl⟩ := List.mem_map.mp hd
    have hmod : ∀ m, m < 10 → isDigit (UInt8.ofNat (48 + m)) = true := by decide
    exact hmod _ (Nat.mod_lt _ (by decide))

/-- The second pass writes the output that the spans ask for. -/
theorem expanded_writeOutput (rand : Nat → Nat) {s : Bytes} {p : Nat} {spans : List Replacing}
    (h : Ordered s p spans) (draws : Nat) :
    Expanded p (s.drop p) spans (writeOutput rand s p draws spans) := by
  induction h generalizing draws with
  | nil => exact Expanded.rest
  | @cons p ce spans hle hspan hinside hpos _ _ ih =>
    have hdigits := randomDigits_spec rand draws ce.value.toNat
    have hbetween : (slice s p (ce.start - p)).length = ce.start - p := by
      apply length_slice
      omega
    have hlen : (slice s ce.start (ce.stop + 1 - ce.start)).length = ce.stop + 1 - ce.start := by
      apply length_slice
      omega
    have hsplit : s.drop p = slice s p (ce.start - p) ++
        (slice s ce.start (ce.stop + 1 - ce.start) ++ s.drop (ce.stop + 1)) := by
      have hrest : (s.drop ce.start).drop (ce.stop + 1 - ce.start) = s.drop (ce.stop + 1) := by
        rw [List.drop_drop, Nat.add_sub_cancel' (by omega)]
      have hstart : (s.drop p).drop (ce.start - p) = s.drop ce.start := by
        rw [List.drop_drop, Nat.add_sub_cancel' hle]
      rw [slice, slice, ← hrest, List.take_append_drop, ← hstart, List.take_append_drop]
    rw [hsplit, writeOutput, List.append_assoc]
    apply Expanded.span
    · rw [hbetween]
      omega
    · rw [hlen]
      omega
    · rw [hdigits.1]
      omega
    · exact hdigits.2
    · exact ih _

/-- The output has the digits of a span between the outputs for what is in front of it and behind
it. -/
theorem Expanded.split {ce : Replacing} {behind : List Replacing} (before : List Replacing)
    {p : Nat} {bytes out : Bytes} (h : Expanded p bytes (before ++ ce :: behind) out) :
    ∃ pre span post front digits back,
      (bytes = pre ++ (span ++ post) ∧ ce.start = p + pre.length ∧
        ce.stop + 1 = ce.start + span.length) ∧
      out = front ++ (digits ++ back) ∧ Expanded p pre before front ∧
      ((digits.length : Int) = ce.value ∧ ∀ d ∈ digits, isDigit d = true) ∧
      Expanded (ce.stop + 1) post behind back := by
  induction before generalizing p bytes out with
  | nil =>
    cases h with
    | span hstart hstop hlen hdigits hrest =>
      exact ⟨_, _, _, _, _, _, ⟨rfl, hstart, hstop⟩, rfl, Expanded.rest, ⟨hlen, hdigits⟩, hrest⟩
  | cons first before ih =>
    cases h with
    | span hstart hstop hlen hdigits hrest =>
      obtain ⟨pre, span, post, front, digits, back, ⟨rfl, hce, hspan⟩, rfl, hfront, hvalue,
        hback⟩ := ih hrest
      refine ⟨_, span, post, _, digits, back, ⟨?_, ?_, hspan⟩, ?_,
        Expanded.span hstart hstop hlen hdigits hfront, hvalue, hback⟩
      · simp only [List.append_assoc]
      · simp only [List.length_append]
        omega
      · simp only [List.append_assoc]

/-! ## The size of the output -/

/-- What one span does to the size. -/
def sizeStep (len : Int) (ce : Replacing) : Int := len - (ce.stop - ce.start + 1) + ce.value

/-- The size computed from the spans is that of the output. -/
theorem Expanded.foldl_sizeStep {p : Nat} {bytes out : Bytes} {spans : List Replacing}
    (h : Expanded p bytes spans out) (k : Int) :
    spans.foldl sizeStep (k + bytes.length) = k + out.length := by
  induction h generalizing k with
  | rest => rfl
  | @span p ce between span digits bytes out spans hstart hstop hdigits _ _ ih =>
    have hstep : sizeStep (k + (between ++ (span ++ bytes)).length) ce =
        (k + between.length + digits.length) + bytes.length := by
      simp only [sizeStep, List.length_append]
      omega
    rw [List.foldl_cons, hstep, ih]
    simp only [List.length_append]
    omega

/-- The output is not much longer than the input. -/
theorem Expanded.length_le {s : Bytes} {p : Nat} {bytes out : Bytes} {spans : List Replacing}
    (h : Expanded p bytes spans out) (hordered : Ordered s p spans) :
    out.length ≤ 22 * bytes.length := by
  induction h with
  | rest => omega
  | span hstart hstop hdigits _ _ ih =>
    cases hordered with
    | cons _ hspan _ _ hmax hrest =>
      have hle := ih hrest
      have hlen : randStartLen = 2 := rfl
      have hbound : randMaxLen = 64 := rfl
      simp only [List.length_append]
      omega

/-- The bound keeps the size inside a `size_t`; a `text` is shorter than `2 ^ 30`. -/
theorem retLen_eq (rand : Nat → Nat) {s : Bytes} (hsize : s.length < 2 ^ 59) :
    retLen s (placeholders s) = (writeOutput rand s 0 0 (placeholders s)).length := by
  have hexpanded := expanded_writeOutput rand (ordered_placeholders s) 0
  rw [List.drop_zero] at hexpanded
  have hle := hexpanded.length_le (ordered_placeholders s)
  have hfold := hexpanded.foldl_sizeStep 0
  rw [Int.zero_add, Int.zero_add] at hfold
  have hret : retLen s (placeholders s) =
      (((placeholders s).foldl sizeStep s.length) % 2 ^ 64).toNat := rfl
  rw [hret, hfold]
  omega

theorem replace_text (rand : Nat → Nat) {s : Bytes} (hsize : s.length < 2 ^ 59) :
    Expanded 0 s (placeholders s) (replace rand s).text := by
  have hexpanded := expanded_writeOutput rand (ordered_placeholders s) 0
  rw [List.drop_zero] at hexpanded
  rw [replace]
  by_cases hnil : placeholders s = []
  · rw [hnil] at hexpanded ⊢
    exact hexpanded
  · have hlen : (placeholders s).length ≠ 0 := fun h => hnil (List.length_eq_zero_iff.mp h)
    simp only [if_neg hlen]
    rw [retLen_eq rand hsize, List.take_left]
    exact hexpanded

theorem replaced_eq_false_iff (rand : Nat → Nat) (s : Bytes) :
    (replace rand s).replaced = false ↔ placeholders s = [] := by
  rw [replace, ← List.length_eq_zero_iff]
  split
  · rename_i hlen
    exact iff_of_true rfl hlen
  · rename_i hlen
    exact iff_of_false (by simp) hlen

/-- `replace` finds the spans of the description, has room for them, computes the size of what it
writes, and writes the input with digits in the place of the spans. -/
theorem replace_consistent (rand : Nat → Nat) (s : Bytes) (hsize : s.length < 2 ^ 59) :
    (∀ spans, Scan s 0 spans ↔ spans = placeholders s) ∧
    ((placeholders s).Pairwise (fun a b => a.stop < b.start) ∧
      ∀ ce ∈ placeholders s, ce.start < ce.stop ∧ ce.stop < s.length) ∧
    (scanPlaceholders s (s.length + 1) 0 .empty =
        cacheAfter (placeholders s) (placeholders s).length ∧
      ∀ k, k < (placeholders s).length → (cacheAfter (placeholders s) k).entries.length = k ∧
        k < (cacheAfter (placeholders s) k).grow.cSize) ∧
    retLen s (placeholders s) = (writeOutput rand s 0 0 (placeholders s)).length ∧
    Expanded 0 s (placeholders s) (replace rand s).text ∧
    ((replace rand s).replaced = false ↔ placeholders s = []) ∧
    ((replace rand s).replaced = false → (replace rand s).text = s) := by
  have hordered := ordered_placeholders s
  refine ⟨scan_iff s, ⟨hordered.pairwise, fun ce hce => (hordered.le_start ce hce).2⟩,
    ⟨?_, fun k hk => store_lt_capacity hk⟩, retLen_eq rand hsize, replace_text rand hsize,
    replaced_eq_false_iff rand s, ?_⟩
  · rw [cacheAfter, List.take_length]
    exact (scan_placeholders s).2
  · intro hreplaced
    rw [replace_of_placeholders_eq_nil ((replaced_eq_false_iff rand s).mp hreplaced)]

theorem replace_consistent_two :
    Expanded 0 (ascii "a r(2)r()b") (placeholders (ascii "a r(2)r()b"))
      (replace (fun k => k) (ascii "a r(2)r()b")).text :=
  (replace_consistent (fun k => k) (ascii "a r(2)r()b") (by decide)).2.2.2.2.1

end YetiPgExt.Regexp
