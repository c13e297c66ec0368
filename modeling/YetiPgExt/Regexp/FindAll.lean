import YetiPgExt.Regexp.ReplaceOutput

/-!
# Placeholders behind other text

A candidate ends at the first closing bracket behind its `r(`, whatever stands in between. A
placeholder is therefore found exactly if every `r(` in front of it is closed in front of it
(`placeholderExpanded_iff`); an `r(` that is left open takes the bracket of the placeholder.
-/

set_option autoImplicit false

namespace YetiPgExt.Regexp

open YetiPgExt.Library

/-- `r(N)` for the digits of `N`. -/
def placeholder (ds : Bytes) : Bytes := randStart1 :: randStart2 :: (ds ++ [randEnd])

/-- From an offset on, every `r(` of the text has a closing bracket behind it. -/
def AllClosed (s : Bytes) (p : Nat) : Prop :=
  ∀ b, p ≤ b → s[b]? = some randStart1 → s[b + 1]? = some randStart2 →
    ClosedFrom s (b + randStartLen)

section

variable {pre ds post : Bytes}

/-- The text around a placeholder. -/
def around (pre ds post : Bytes) : Bytes := pre ++ (placeholder ds ++ post)

/-- The span of the placeholder. -/
def spanOf (pre ds : Bytes) : Replacing :=
  ⟨pre.length, pre.length + randStartLen + ds.length, max 0 (min 64 (digitsValue ds : Int))⟩

theorem getElem?_around_left {i : Nat} (h : i < pre.length) :
    (around pre ds post)[i]? = pre[i]? := List.getElem?_append_left h

theorem getElem?_around_right (i : Nat) :
    (around pre ds post)[pre.length + i]? = (placeholder ds ++ post)[i]? := by
  rw [around, List.getElem?_append_right (Nat.le_add_right _ _), Nat.add_sub_cancel_left]

theorem drop_around :
    (around pre ds post).drop (pre.length + randStartLen) = ds ++ randEnd :: post := by
  rw [← List.drop_drop, around, List.drop_left, placeholder]
  show (ds ++ [randEnd]) ++ post = _
  rw [List.append_assoc]
  rfl

variable (hdigits : ∀ d ∈ ds, isDigit d = true)

include hdigits in
theorem firstEnd_around :
    FirstEnd (around pre ds post) (pre.length + randStartLen)
      (pre.length + randStartLen + ds.length) := by
  have hget : ∀ i, (around pre ds post)[pre.length + randStartLen + i]? =
      (ds ++ randEnd :: post)[i]? := by
    intro i
    rw [← drop_around, List.getElem?_drop]
  refine ⟨Nat.le_add_right _ _, ?_, ?_⟩
  · rw [hget, List.getElem?_append_right (Nat.le_refl _), Nat.sub_self]
    rfl
  · intro i hle hlt hend
    obtain ⟨j, rfl⟩ := Nat.exists_eq_add_of_le hle
    have hj : j < ds.length := by omega
    rw [hget, List.getElem?_append_left hj] at hend
    have hdigit := hdigits randEnd (List.mem_of_getElem? hend)
    exact absurd hdigit (by decide)

include hdigits in
theorem opens_around : Opens (around pre ds post) pre.length := by
  have hend : FirstEnd (around pre ds post) _ _ := firstEnd_around hdigits
  exact ⟨getElem?_around_right 0, getElem?_around_right 1, _, hend.le, hend.at_end⟩

theorem content_around :
    content (around pre ds post) pre.length (pre.length + randStartLen + ds.length) = ds := by
  rw [content, slice, drop_around, Nat.add_sub_cancel_left, List.take_left]

/-! ## Found -/

theorem AllClosed.mono {s : Bytes} {p q : Nat} (h : AllClosed s p) (hle : p ≤ q) : AllClosed s q :=
  fun b hb => h b (Nat.le_trans hle hb)

/-- A byte of the text in front that is a closing bracket lies strictly in front. -/
theorem lt_of_randEnd {e : Nat} (hle : e ≤ pre.length)
    (hend : (around pre ds post)[e]? = some randEnd) : e < pre.length := by
  apply Nat.lt_of_le_of_ne hle
  rintro rfl
  rw [show pre.length = pre.length + 0 from rfl, getElem?_around_right] at hend
  exact absurd (Option.some.inj hend) (by decide)

/-- An `r(` that begins in front of the placeholder stands in the text in front. -/
theorem opens_in_front {a : Nat} (hlt : a < pre.length) (h : Opens (around pre ds post) a) :
    pre[a]? = some randStart1 ∧ pre[a + 1]? = some randStart2 := by
  have hne : a + 1 ≠ pre.length := by
    intro heq
    have hsecond := h.start2
    rw [heq, show pre.length = pre.length + 0 from rfl, getElem?_around_right] at hsecond
    exact absurd (Option.some.inj hsecond) (by decide)
  have hfirst := h.start1
  have hsecond := h.start2
  rw [getElem?_around_left hlt] at hfirst
  rw [getElem?_around_left (by omega)] at hsecond
  exact ⟨hfirst, hsecond⟩

include hdigits in
/-- A candidate in front of the placeholder ends in front of it if its `r(` is closed there. -/
theorem IsCandidate.end_lt {p a e : Nat} (h : IsCandidate (around pre ds post) p a e)
    (hclosed : AllClosed pre p) (hp : p ≤ pre.length) (hne : a ≠ pre.length) : e < pre.length := by
  have hle : a ≤ pre.length := by
    by_contra hlt
    exact h.next _ hp (not_le.mp hlt) (opens_around hdigits)
  have hlt : a < pre.length := Nat.lt_of_le_of_ne hle hne
  obtain ⟨hfirst, hsecond⟩ := opens_in_front hlt h.opens
  obtain ⟨k, hk, hclosing⟩ := hclosed a h.le hfirst hsecond
  have hkpre : k < pre.length := (List.getElem?_eq_some_iff.mp hclosing).1
  rw [← getElem?_around_left hkpre] at hclosing
  by_contra hout
  exact h.ends.first k hk (by omega) hclosing

include hdigits in
/-- If every `r(` in front is closed in front, the scan comes to the placeholder. -/
theorem Scan.mem_spanOf {p : Nat} {spans : List Replacing} (hne : ds ≠ [])
    (h : Scan (around pre ds post) p spans) (hp : p ≤ pre.length) (hclosed : AllClosed pre p) :
    spanOf pre ds ∈ spans := by
  have hvalue : BeginsWithInteger ds (digitsValue ds) := beginsWithInteger_digits hne hdigits
  -- on the scan: a candidate is the placeholder, or ends in front of it
  induction h with
  | done hnone => exact absurd (opens_around hdigits) (hnone _ hp)
  | @kept p a e v spans hcand hv _ ih =>
    by_cases ha : a = pre.length
    · subst ha
      have he := hcand.ends.unique (firstEnd_around hdigits)
      subst he
      rw [content_around] at hv
      rw [spanOf, boundedValue_unique hvalue hv]
      exact List.mem_cons_self
    · have hlt := hcand.end_lt hdigits hclosed hp ha
      exact List.mem_cons_of_mem _
        (ih (Nat.le_of_lt hlt) (hclosed.mono (Nat.le_of_lt hcand.lt.2)))
  | @rejected p a e spans hcand hnone _ ih =>
    by_cases ha : a = pre.length
    · subst ha
      have he := hcand.ends.unique (firstEnd_around hdigits)
      subst he
      rw [content_around] at hnone
      exact absurd hvalue (hnone _)
    · have hlt := hcand.end_lt hdigits hclosed hp ha
      exact ih (Nat.le_of_lt hlt) (hclosed.mono (Nat.le_of_lt hcand.lt.2))

/-- The placeholder is among those that `replace` finds, and the output has as many digits in its
place as its value says, up to 64. -/
def PlaceholderExpanded (pre ds post text : Bytes) : Prop :=
  ∃ before behind front digits back,
    placeholders (around pre ds post) = before ++ spanOf pre ds :: behind ∧
    text = front ++ (digits ++ back) ∧ Expanded 0 pre before front ∧
    (digits.length = min 64 (digitsValue ds) ∧ ∀ d ∈ digits, isDigit d = true) ∧
    Expanded (pre.length + (placeholder ds).length) post behind back

theorem length_placeholder (ds : Bytes) :
    (placeholder ds).length = randStartLen + ds.length + 1 := by
  have hlen : randStartLen = 2 := rfl
  rw [placeholder, List.length_cons, List.length_cons, List.length_append, List.length_singleton]
  omega

/-- A span that is found is expanded. -/
theorem placeholderExpanded_of_mem {text : Bytes}
    (h : Expanded 0 (around pre ds post) (placeholders (around pre ds post)) text)
    (hmem : spanOf pre ds ∈ placeholders (around pre ds post)) :
    PlaceholderExpanded pre ds post text := by
  obtain ⟨before, behind, hspans⟩ := List.append_of_mem hmem
  rw [hspans] at h
  obtain ⟨pre', span, post', front, digits, back, ⟨hbytes, hstart, hstop⟩, htext, hfront, hdigits,
    hback⟩ := h.split
  have hpre : pre.length = pre'.length := by
    have hstart' : pre.length = 0 + pre'.length := hstart
    omega
  have hlen : (placeholder ds).length = span.length := by
    have hstop' : pre.length + randStartLen + ds.length + 1 = pre.length + span.length := hstop
    rw [length_placeholder]
    omega
  rw [around] at hbytes
  obtain ⟨rfl, hrest⟩ := List.append_inj hbytes hpre
  obtain ⟨rfl, rfl⟩ := List.append_inj hrest hlen
  rw [hstop] at hback
  have hcount : (digits.length : Int) = max 0 (min 64 (digitsValue ds : Int)) := hdigits.1
  exact ⟨before, behind, front, digits, back, hspans, htext, hfront, ⟨by omega, hdigits.2⟩, hback⟩

/-! ## Not found -/

/-- A candidate that ends in front of the placeholder ends in front of an `r(`, or closes it. -/
theorem IsCandidate.le_or_closed {p a e b : Nat} (h : IsCandidate (around pre ds post) p a e)
    (hsecond : pre[b + 1]? = some randStart2) (he : e ≤ pre.length) :
    e ≤ b ∨ ClosedFrom pre (b + randStartLen) := by
  have hlt := lt_of_randEnd he h.ends.at_end
  have hclosing := h.ends.at_end
  rw [getElem?_around_left hlt] at hclosing
  rcases Nat.lt_or_ge b e with hbe | hbe
  · right
    have hne : e ≠ b + 1 := by
      rintro rfl
      rw [hclosing] at hsecond
      exact absurd (Option.some.inj hsecond) (by decide)
    have hlen : randStartLen = 2 := rfl
    exact ⟨e, by omega, hclosing⟩
  · exact Or.inl hbe

include hdigits in
/-- An `r(` in front is the next candidate, or behind it. -/
theorem IsCandidate.le_of_open {p a e b : Nat} (h : IsCandidate (around pre ds post) p a e)
    (hb : p ≤ b) (hfirst : pre[b]? = some randStart1) (hsecond : pre[b + 1]? = some randStart2) :
    a < pre.length := by
  have hlt : b + 1 < pre.length := (List.getElem?_eq_some_iff.mp hsecond).1
  have hend : FirstEnd (around pre ds post) _ _ := firstEnd_around hdigits
  have hopens : Opens (around pre ds post) b := by
    refine ⟨?_, ?_, _, ?_, hend.at_end⟩
    · rw [getElem?_around_left (by omega), hfirst]
    · rw [getElem?_around_left hlt, hsecond]
    · have hlen : randStartLen = 2 := rfl
      omega
  by_contra hout
  exact h.next b hb (by omega) hopens

include hdigits in
/-- If the scan comes to the placeholder, every `r(` in front is closed in front. -/
theorem Scan.allClosed {p : Nat} {spans : List Replacing} (h : Scan (around pre ds post) p spans)
    (hmem : spanOf pre ds ∈ spans) : AllClosed pre p := by
  induction h with
  | done _ => cases hmem
  | @kept p a e v spans hcand _ hrest ih =>
    intro b hb hfirst hsecond
    have ha := hcand.le_of_open hdigits hb hfirst hsecond
    rcases List.mem_cons.mp hmem with heq | hmem
    · have hstart : pre.length = a := congrArg Replacing.start heq
      omega
    · have hafter := (hrest.ordered e fun _ hle _ => hle).le_start _ hmem
      rcases hcand.le_or_closed hsecond hafter.1 with hbe | hclosed
      · exact ih hmem b hbe hfirst hsecond
      · exact hclosed
  | @rejected p a e spans hcand _ hrest ih =>
    intro b hb hfirst hsecond
    have hafter := (hrest.ordered e fun _ hle _ => hle).le_start _ hmem
    rcases hcand.le_or_closed hsecond hafter.1 with hbe | hclosed
    · exact ih hmem b hbe hfirst hsecond
    · exact hclosed

include hdigits in
/-- A placeholder is found and expanded exactly if every `r(` in front of it is closed in front of
it. -/
theorem placeholderExpanded_iff (rand : Nat → Nat) (hne : ds ≠ [])
    (hsize : (around pre ds post).length < 2 ^ 59) :
    PlaceholderExpanded pre ds post (replace rand (around pre ds post)).text ↔ AllClosed pre 0 := by
  have hscan := (scan_placeholders (around pre ds post)).1
  constructor
  · rintro ⟨before, behind, -, -, -, hspans, -⟩
    apply hscan.allClosed hdigits
    rw [hspans]
    exact List.mem_append_right _ List.mem_cons_self
  · intro hclosed
    exact placeholderExpanded_of_mem (replace_text rand hsize)
      (hscan.mem_spanOf hdigits hne (Nat.zero_le _) hclosed)

end

theorem isDigit_three : ∀ d ∈ ascii "3", isDigit d = true := by
  intro d hd
  rw [List.mem_singleton.mp hd]
  decide

theorem placeholderExpanded_iff_empty :
    PlaceholderExpanded (ascii "a r()") (ascii "3") (ascii "b")
        (replace (fun k => k) (around (ascii "a r()") (ascii "3") (ascii "b"))).text ↔
      AllClosed (ascii "a r()") 0 :=
  placeholderExpanded_iff isDigit_three (fun k => k) (by decide) (by decide)

theorem not_placeholderExpanded :
    ¬ ∀ (rand : Nat → Nat) (pre ds post : Bytes), ds ≠ [] → (∀ d ∈ ds, isDigit d = true) →
      (around pre ds post).length < 2 ^ 59 →
      PlaceholderExpanded pre ds post (replace rand (around pre ds post)).text := by
  intro h
  obtain ⟨before, behind, -, -, -, hspans, -⟩ :=
    h (fun k => k) (ascii "r(x") (ascii "3") [] (by decide) isDigit_three (by decide)
  -- the candidate is `r(xr(3)` as a whole, and has no value
  have hnone : placeholders (around (ascii "r(x") (ascii "3") []) = [] := by decide +kernel
  rw [hnone] at hspans
  exact absurd hspans.symm (List.append_ne_nil_of_right_ne_nil _ (List.cons_ne_nil _ _))

end YetiPgExt.Regexp
