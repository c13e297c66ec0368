import YetiPgExt.Library.Decimal
import YetiPgExt.Regexp.ReplaceRand

/-!
# What the scan of `replace` finds

The spans of a text by their description: from the end of the previous candidate on, the next `r(`
that has a closing bracket behind it is a candidate, which ends at the first such bracket; it is
kept if its content begins with a decimal integer (`Scan`). `scan_iff` says that the loop of `replace`,
with its early exits, finds these spans and no others.
-/

set_option autoImplicit false

namespace YetiPgExt.Regexp

open YetiPgExt.Library

/-! ## Candidates -/

/-- There is a closing bracket at an offset from `p` on. -/
def ClosedFrom (s : Bytes) (p : Nat) : Prop := ∃ i, p ≤ i ∧ s[i]? = some randEnd

/-- An `r(` that has a closing bracket behind it. -/
structure Opens (s : Bytes) (a : Nat) : Prop where
  start1 : s[a]? = some randStart1
  start2 : s[a + 1]? = some randStart2
  closed : ClosedFrom s (a + randStartLen)

/-- The offset of the first closing bracket from `p` on. -/
structure FirstEnd (s : Bytes) (p e : Nat) : Prop where
  le : p ≤ e
  at_end : s[e]? = some randEnd
  first : ∀ i, p ≤ i → i < e → s[i]? ≠ some randEnd

/-- The next candidate from `p` on, with its first and its last byte. -/
structure IsCandidate (s : Bytes) (p a e : Nat) : Prop where
  le : p ≤ a
  opens : Opens s a
  next : ∀ b, p ≤ b → b < a → ¬ Opens s b
  ends : FirstEnd s (a + randStartLen) e

/-- Nothing opens between two offsets. -/
def NoneOpens (s : Bytes) (p q : Nat) : Prop := ∀ b, p ≤ b → b < q → ¬ Opens s b

/-- What stands between the brackets. -/
def content (s : Bytes) (a e : Nat) : Bytes := slice s (a + randStartLen) (e - (a + randStartLen))

/-- The spans from an offset on. -/
inductive Scan (s : Bytes) : Nat → List Replacing → Prop where
  | done {p : Nat} : (∀ b, p ≤ b → ¬ Opens s b) → Scan s p []
  | kept {p a e : Nat} {v : Int} {spans : List Replacing} : IsCandidate s p a e →
      BeginsWithInteger (content s a e) v → Scan s e spans →
      Scan s p (⟨a, e, max 0 (min 64 v)⟩ :: spans)
  | rejected {p a e : Nat} {spans : List Replacing} : IsCandidate s p a e →
      (∀ v, ¬ BeginsWithInteger (content s a e) v) → Scan s e spans → Scan s p spans

section

variable {s : Bytes} {p q a e : Nat} {spans : List Replacing}

theorem FirstEnd.lt_length (h : FirstEnd s p e) : e < s.length :=
  (List.getElem?_eq_some_iff.mp h.at_end).1

theorem FirstEnd.unique {e' : Nat} (h : FirstEnd s p e) (h' : FirstEnd s p e') : e = e' := by
  apply Nat.le_antisymm
  · by_contra hlt
    exact h.first e' h'.le (not_le.mp hlt) h'.at_end
  · by_contra hlt
    exact h'.first e h.le (not_le.mp hlt) h.at_end

theorem exists_firstEnd (h : ClosedFrom s p) : ∃ e, FirstEnd s p e := by
  classical
  have hfind := Nat.find_spec h
  refine ⟨Nat.find h, hfind.1, hfind.2, ?_⟩
  intro i hp hi hend
  exact Nat.find_min h hi ⟨hp, hend⟩

/-- A candidate is longer than its two first bytes, and moves the scan forward. -/
theorem IsCandidate.lt (h : IsCandidate s p a e) : a + randStartLen ≤ e ∧ p < e := by
  have hle := h.le
  have hend := h.ends.le
  have hlen : randStartLen = 2 := rfl
  exact ⟨hend, by omega⟩

theorem IsCandidate.unique {a' e' : Nat} (h : IsCandidate s p a e) (h' : IsCandidate s p a' e') :
    a = a' ∧ e = e' := by
  have ha : a = a' := by
    apply Nat.le_antisymm
    · by_contra hlt
      exact h.next a' h'.le (not_le.mp hlt) h'.opens
    · by_contra hlt
      exact h'.next a h.le (not_le.mp hlt) h.opens
  subst ha
  exact ⟨rfl, h.ends.unique h'.ends⟩

/-- Where something opens there is a candidate. -/
theorem exists_candidate (h : ∃ b, p ≤ b ∧ Opens s b) : ∃ a e, IsCandidate s p a e := by
  classical
  have hfind := Nat.find_spec h
  obtain ⟨e, he⟩ := exists_firstEnd hfind.2.closed
  refine ⟨Nat.find h, e, hfind.1, hfind.2, ?_, he⟩
  intro b hp hb hopens
  exact Nat.find_min h hb ⟨hp, hopens⟩

/-- A candidate from further on is the next one if nothing opens in between. -/
theorem IsCandidate.mono (h : IsCandidate s q a e) (hle : p ≤ q)
    (hskip : NoneOpens s p q) : IsCandidate s p a e := by
  refine ⟨Nat.le_trans hle h.le, h.opens, ?_, h.ends⟩
  intro b hp hb
  by_cases hq : b < q
  · exact hskip b hp hq
  · exact h.next b (not_lt.mp hq) hb

/-- Bytes at which nothing opens can be passed over. -/
theorem Scan.mono (h : Scan s q spans) (hle : p ≤ q) (hskip : NoneOpens s p q) :
    Scan s p spans := by
  cases h with
  | done hnone =>
    apply Scan.done
    intro b hp
    by_cases hq : b < q
    · exact hskip b hp hq
    · exact hnone b (not_lt.mp hq)
  | kept hcand hvalue hrest => exact Scan.kept (hcand.mono hle hskip) hvalue hrest
  | rejected hcand hnone hrest => exact Scan.rejected (hcand.mono hle hskip) hnone hrest

/-! ## The content -/

theorem endsInteger_randEnd : EndsInteger randEnd := ⟨by decide, by decide, by decide, by decide⟩

/-- What `sscanf` reads of the rest of the text, it reads of the content. -/
theorem beginsWithInteger_drop_iff (h : FirstEnd s (a + randStartLen) e) (v : Int) :
    BeginsWithInteger (s.drop (a + randStartLen)) v ↔ BeginsWithInteger (content s a e) v := by
  have hsplit : s.drop (a + randStartLen) = content s a e ++ randEnd :: s.drop (e + 1) := by
    have hle := h.le
    obtain ⟨hlt, hget⟩ := List.getElem?_eq_some_iff.mp h.at_end
    have hrest : (s.drop (a + randStartLen)).drop (e - (a + randStartLen)) =
        randEnd :: s.drop (e + 1) := by
      rw [List.drop_drop, Nat.add_sub_cancel' hle, List.drop_eq_getElem_cons hlt, hget]
    rw [content, slice, ← hrest, List.take_append_drop]
  rw [hsplit]
  exact beginsWithInteger_append_iff endsInteger_randEnd _ _ v

/-- The value is brought into the bounds of a random string. -/
theorem clampValue_eq (v : Int) : clampValue v = max 0 (min 64 v) := by
  simp only [clampValue, randMinLen, randMaxLen]
  split_ifs <;> omega

/-- Saturation is not seen behind these bounds. -/
theorem clampValue_saturateLong (v : Int) : clampValue (saturateLong v) = clampValue v := by
  rw [clampValue_eq, clampValue_eq, saturateLong]
  omega

/-- The integer of a text is one for `replace`. -/
theorem boundedValue_unique {v v' : Int} (h : BeginsWithInteger s v)
    (h' : BeginsWithInteger s v') : max 0 (min 64 v) = max 0 (min 64 v') := by
  have hlong := scanLong_of_beginsWithInteger h
  rw [scanLong_of_beginsWithInteger h', Option.some.injEq] at hlong
  rw [← clampValue_eq, ← clampValue_eq, ← clampValue_saturateLong, ← hlong,
    clampValue_saturateLong]

end

/-- Without room for an integer nothing is kept. -/
theorem scan_of_short (s : Bytes) (p : Nat) (h : s.length < p + randCompletedMinLen) :
    Scan s p [] := by
  by_cases hopens : ∃ b, p ≤ b ∧ Opens s b
  · obtain ⟨a, e, hcand⟩ := exists_candidate hopens
    obtain ⟨hend, hmoved⟩ := hcand.lt
    have hle := hcand.le
    have hinside := hcand.ends.lt_length
    have hmin : randCompletedMinLen = 4 := rfl
    have hstart : randStartLen = 2 := rfl
    -- the content is empty, and behind the candidate there is less room still
    have hnil : content s a e = [] := by
      rw [content, slice, show e - (a + randStartLen) = 0 by omega, List.take_zero]
    apply Scan.rejected hcand _ (scan_of_short s e (by omega))
    rw [hnil, ← scanLong_eq_none_iff]
    rfl
  · apply Scan.done
    intro b hb hb'
    exact hopens ⟨b, hb, hb'⟩
termination_by s.length - p
decreasing_by omega

/-! ## The loop -/

theorem memchr_drop_eq_some_iff {c : UInt8} {s : Bytes} {p i : Nat} :
    memchr c (s.drop p) = some i ↔
      s[p + i]? = some c ∧ ∀ b, p ≤ b → b < p + i → s[b]? ≠ some c := by
  rw [memchr_eq_some_iff, List.getElem?_drop]
  apply and_congr_right
  intro _
  constructor
  · intro h b hp hb
    have hj := h (b - p) (by omega)
    rwa [List.getElem?_drop, Nat.add_sub_cancel' hp] at hj
  · intro h j hj
    rw [List.getElem?_drop]
    exact h (p + j) (Nat.le_add_right _ _) (by omega)

theorem memchr_drop_eq_none_iff {c : UInt8} {s : Bytes} {p : Nat} :
    memchr c (s.drop p) = none ↔ ∀ b, p ≤ b → s[b]? ≠ some c := by
  rw [memchr_eq_none_iff]
  constructor
  · intro h b hp hb
    apply h
    apply List.mem_of_getElem? (i := b - p)
    rwa [List.getElem?_drop, Nat.add_sub_cancel' hp]
  · intro h hmem
    obtain ⟨j, hj⟩ := List.getElem?_of_mem hmem
    rw [List.getElem?_drop] at hj
    exact h (p + j) (Nat.le_add_right _ _) hj

section

variable {s : Bytes} {p i fuel : Nat} {c : ReplacingCache}

/-- Up to the first `r` nothing opens. -/
theorem noneOpens_of_memchr (h : memchr randStart1 (s.drop p) = some i) :
    NoneOpens s p (p + i) := by
  intro b hp hb hopens
  exact (memchr_drop_eq_some_iff.mp h).2 b hp hb hopens.start1

/-- An `r` opens nothing without the bracket behind it. -/
theorem NoneOpens.succ {q : Nat} (h : NoneOpens s p q) (hsecond : s.getD (q + 1) 0 ≠ randStart2) :
    NoneOpens s p (q + 1) := by
  intro b hp hb hopens
  by_cases hbq : b = q
  · subst hbq
    apply hsecond
    rw [List.getD_eq_getElem?_getD, hopens.start2]
    rfl
  · exact h b hp (by omega) hopens

/-- Nothing is opened without a closing bracket. -/
theorem NoneOpens.unclosed {q : Nat} (h : NoneOpens s p q)
    (hend : memchr randEnd (s.drop (q + randStartLen)) = none) :
    NoneOpens s p (q + randStartLen) := by
  rw [memchr_drop_eq_none_iff] at hend
  intro b hp hb hopens
  by_cases hbq : b < q
  · exact h b hp hbq hopens
  · obtain ⟨k, hk, hclosed⟩ := hopens.closed
    exact hend k (by omega) hclosed

/-- What one round of the loop can do, with its result: it ends the scan, passes over bytes at which
nothing opens, or over a candidate. -/
inductive Round (s : Bytes) (fuel p : Nat) (c : ReplacingCache) : ReplacingCache → Prop where
  | ends : Scan s p [] → Round s fuel p c c
  | moves {q : Nat} : p < q → NoneOpens s p q → Round s fuel p c (scanPlaceholders s fuel q c)
  | rejects {a e : Nat} : IsCandidate s p a e → (∀ v, ¬ BeginsWithInteger (content s a e) v) →
      Round s fuel p c (scanPlaceholders s fuel e c)
  | keeps {a e : Nat} {v : Int} : IsCandidate s p a e → BeginsWithInteger (content s a e) v →
      Round s fuel p c (scanPlaceholders s fuel e (c.push ⟨a, e, clampValue v⟩))

/-- The round goes on if there is room for a placeholder. -/
theorem round_advance {q : Nat} (hq : p < q) (hnone : NoneOpens s p q) :
    Round s fuel p c
      (if q + randCompletedMinLen > s.length then c else scanPlaceholders s fuel q c) := by
  split
  · rename_i hshort
    exact Round.ends ((scan_of_short s q hshort).mono (Nat.le_of_lt hq) hnone)
  · exact Round.moves hq hnone

/-- The round keeps a candidate if `sscanf` finds a value. -/
theorem round_candidate {a e : Nat} (hcand : IsCandidate s p a e) :
    Round s fuel p c
      (match scanLong (s.drop (a + randStartLen)) with
      | none => scanPlaceholders s fuel e c
      | some value => scanPlaceholders s fuel e (c.push ⟨a, e, clampValue value⟩)) := by
  have hcontent := beginsWithInteger_drop_iff hcand.ends
  cases hvalue : scanLong (s.drop (a + randStartLen)) with
  | none =>
    apply Round.rejects hcand
    intro v hv
    exact scanLong_eq_none_iff.mp hvalue v ((hcontent v).mpr hv)
  | some v =>
    obtain ⟨n, hn, rfl⟩ := beginsWithInteger_of_scanLong hvalue
    have hkeeps := @Round.keeps s fuel p c _ _ _ hcand ((hcontent n).mp hn)
    rw [← clampValue_saturateLong] at hkeeps
    exact hkeeps

theorem round_spec (s : Bytes) (fuel p : Nat) (c : ReplacingCache) :
    Round s fuel p c (scanPlaceholders s (fuel + 1) p c) := by
  rw [scanPlaceholders]
  cases hr : memchr randStart1 (s.drop p) with
  | none =>
    rw [memchr_drop_eq_none_iff] at hr
    apply Round.ends
    apply Scan.done
    intro b hb hopens
    exact hr b hb hopens.start1
  | some i =>
    have hnone := noneOpens_of_memchr hr
    simp only
    split
    · rename_i hshort
      exact Round.ends ((scan_of_short s (p + i) hshort).mono (Nat.le_add_right _ _) hnone)
    · rename_i hlong
      split
      · rename_i hsecond
        exact round_advance (by omega) (hnone.succ hsecond)
      · rename_i hsecond
        have hstart2 : s[p + i + 1]? = some randStart2 := by
          have hlt : p + i + 1 < s.length := by
            have hmin : randCompletedMinLen = 4 := rfl
            omega
          rw [not_not, List.getD_eq_getElem?_getD, List.getElem?_eq_getElem hlt,
            Option.getD_some] at hsecond
          rw [List.getElem?_eq_getElem hlt, hsecond]
        cases hend : memchr randEnd (s.drop (p + i + randStartLen)) with
        | none =>
          have hlen : randStartLen = 2 := rfl
          exact round_advance (by omega) (hnone.unclosed hend)
        | some j =>
          obtain ⟨hclosing, hfirst⟩ := memchr_drop_eq_some_iff.mp hend
          have hends : FirstEnd s (p + i + randStartLen) (p + i + randStartLen + j) :=
            ⟨Nat.le_add_right _ _, hclosing, hfirst⟩
          have hat := (memchr_drop_eq_some_iff.mp hr).1
          exact round_candidate
            ⟨Nat.le_add_right _ _, ⟨hat, hstart2, _, hends.le, hclosing⟩, hnone, hends⟩

end

/-- The loop adds the spans from its offset on to the cache: by induction on the rounds, each of
which moves the offset. -/
theorem scanPlaceholders_eq (s : Bytes) (fuel p : Nat) (c : ReplacingCache)
    (hfuel : s.length < p + fuel) :
    ∃ spans, Scan s p spans ∧ scanPlaceholders s fuel p c = spans.foldl ReplacingCache.push c := by
  induction fuel generalizing p c with
  | zero =>
    have hmin : randCompletedMinLen = 4 := rfl
    exact ⟨[], scan_of_short s p (by omega), rfl⟩
  | succ fuel ih =>
    have hround := round_spec s fuel p c
    generalize scanPlaceholders s (fuel + 1) p c = c' at hround
    cases hround with
    | ends hscan => exact ⟨[], hscan, rfl⟩
    | @moves q hlt hnone =>
      obtain ⟨spans, hscan, hloop⟩ := ih q c (by omega)
      exact ⟨spans, hscan.mono (Nat.le_of_lt hlt) hnone, hloop⟩
    | @rejects a e hcand hvalue =>
      have hlt := hcand.lt.2
      obtain ⟨spans, hscan, hloop⟩ := ih e c (by omega)
      exact ⟨spans, Scan.rejected hcand hvalue hscan, hloop⟩
    | @keeps a e v hcand hvalue =>
      have hlt := hcand.lt.2
      obtain ⟨spans, hscan, hloop⟩ := ih e (c.push ⟨a, e, clampValue v⟩) (by omega)
      refine ⟨_, Scan.kept hcand hvalue hscan, ?_⟩
      rw [← clampValue_eq]
      exact hloop

/-! ## The spans of a text -/

/-- The description leaves no choice. -/
theorem Scan.unique {s : Bytes} {p : Nat} {spans spans' : List Replacing} (h : Scan s p spans)
    (h' : Scan s p spans') : spans = spans' := by
  induction h generalizing spans' with
  | done hnone =>
    cases h' with
    | done _ => rfl
    | kept hcand _ _ => exact absurd hcand.opens (hnone _ hcand.le)
    | rejected hcand _ _ => exact absurd hcand.opens (hnone _ hcand.le)
  | kept hcand hvalue _ ih =>
    cases h' with
    | done hnone => exact absurd hcand.opens (hnone _ hcand.le)
    | kept hcand' hvalue' hrest' =>
      obtain ⟨rfl, rfl⟩ := hcand.unique hcand'
      rw [ih hrest', boundedValue_unique hvalue hvalue']
    | rejected hcand' hnone' _ =>
      obtain ⟨rfl, rfl⟩ := hcand.unique hcand'
      exact absurd hvalue (hnone' _)
  | rejected hcand hnone _ ih =>
    cases h' with
    | done hnone' => exact absurd hcand.opens (hnone' _ hcand.le)
    | kept hcand' hvalue' _ =>
      obtain ⟨rfl, rfl⟩ := hcand.unique hcand'
      exact absurd hvalue' (hnone _)
    | rejected hcand' _ hrest' =>
      obtain ⟨rfl, rfl⟩ := hcand.unique hcand'
      exact ih hrest'

theorem entries_foldl_push (spans : List Replacing) (c : ReplacingCache) :
    (spans.foldl ReplacingCache.push c).entries = c.entries ++ spans := by
  induction spans generalizing c with
  | nil => rw [List.foldl_nil, List.append_nil]
  | cons ce spans ih =>
    rw [List.foldl_cons, ih]
    exact List.append_assoc _ _ _

/-- The loop leaves the spans of the text in the cache, one pushed behind the other. -/
theorem scan_placeholders (s : Bytes) :
    Scan s 0 (placeholders s) ∧
      scanPlaceholders s (s.length + 1) 0 .empty =
        (placeholders s).foldl ReplacingCache.push .empty := by
  obtain ⟨spans, hscan, hloop⟩ := scanPlaceholders_eq s (s.length + 1) 0 .empty (by omega)
  have hspans : placeholders s = spans := by
    rw [placeholders, hloop, entries_foldl_push]
    rfl
  rw [hspans]
  exact ⟨hscan, hloop⟩

theorem scan_iff (s : Bytes) (spans : List Replacing) :
    Scan s 0 spans ↔ spans = placeholders s := by
  constructor
  · intro h
    exact h.unique (scan_placeholders s).1
  · rintro rfl
    exact (scan_placeholders s).1

end YetiPgExt.Regexp
