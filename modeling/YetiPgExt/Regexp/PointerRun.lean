import YetiPgExt.Regexp.PointerSteps

/-!
# The scalar forms on pointers

`regexpReplaceRandNooptAt_refines`: a call of `regexp_replace_rand_noopt` on pointers has a result,
whatever the engine, the random digits and the arguments are. It returns a new text, the one that
the function on texts returns, and leaves the slots that this one leaves; no object of the caller is
freed or changed. `yields_regexpReplaceRandAt` says the same of the form with options.
-/

set_option autoImplicit false

namespace YetiPgExt.Regexp

open YetiPgExt.Library YetiPgExt.Library.Memory YetiPgExt.Postgres

/-! ## The loop over the chunks -/

/-- The end of a loop on pointers, against the one on texts. -/
inductive EndIs (E : RegexEngine) (data : Bytes) (m₀ m : Memory Block) (p : ArgSlots Ptr)
    (R S : Bytes) : ChunksEndAt → ChunksEnd → Prop
  | out {applied : AppliedAt} {t : Option Bytes} : AppliedIs E data m₀ m p applied t →
      EndIs E data m₀ m p R S (.out applied) (.out t)
  | tail (n rulePtr resultPtr : Nat) :
      EndIs E data m₀ m p R S (.tail n rulePtr resultPtr)
        (.tail n (R.drop rulePtr) (S.drop resultPtr))

section Loop

variable {m₀ m m' : Memory Block} {ownRule ownResult : Prop} {p : ArgSlots Ptr}
  {fc : FcInfo Varlena} {rule result : Buffer} {R S data : Bytes}

theorem slice_eq_take (s : Bytes) (start n : Nat) :
    slice s start (start + n - start) = (s.drop start).take n := by
  rw [slice, Nat.add_sub_cancel_left]

theorem slice_eq_drop {m : Memory Block} {buf : Buffer} {s : Bytes} (h : Walks m buf s)
    (start : Nat) : slice s start (buf.stop - start) = s.drop start := by
  rw [slice, h.stop_eq, ← List.length_drop, List.take_length]

theorem drop_behind (s : Bytes) (start n : Nat) :
    s.drop (start + n + regexpSplitTokenLen) = (s.drop start).drop (n + regexpSplitTokenLen) := by
  rw [List.drop_drop, Nat.add_assoc]

/-- The pointer behind a token is at the end. -/
theorem behind_iff {m : Memory Block} {buf : Buffer} {s : Bytes} (h : Walks m buf s)
    (start n : Nat) :
    start + n + regexpSplitTokenLen ≥ buf.stop ↔
      (s.drop start).drop (n + regexpSplitTokenLen) = [] := by
  rw [← drop_behind, List.drop_eq_nil_iff, h.stop_eq]

theorem Slots.storeLastResult (h : ScalarSlots m₀ ownRule ownResult m p fc)
    (hbuf : Walks m result S) (n start : Nat) :
    Yields (storeLastResult n result start p) m fun p' m' => Kept m m' ∧
      ScalarSlots m₀ ownRule ownResult m' p'
        (if n > 0 then fc.replaceResult (S.drop start) else fc) := by
  rw [Regexp.storeLastResult]
  split
  · rw [← slice_eq_drop hbuf]
    refine (h.storeResult hbuf start result.stop).mono ?_
    rintro p' m' ⟨hkept, -, h'⟩
    exact ⟨hkept, h'.imp id fun _ => trivial⟩
  · exact .pure ⟨.refl m, h⟩

/-- The last chunk of the result is not the input. -/
theorem slotText_lastResult (n : Nat) (t : Bytes) (h : slotText fc.argIn = data) :
    slotText (if n > 0 then fc.replaceResult t else fc).argIn = data := by
  split
  · exact h
  · exact h

theorem chunkLoopAt_of_no_rule (E : RegexEngine) (keepEmpty : Bool) (result : Buffer)
    (fuel n resultPtr : Nat) (p : ArgSlots Ptr) (hrule : Walks m rule R) {start : Nat}
    (hr : searchSplitToken (R.drop start) = none) :
    chunkLoopAt E keepEmpty rule result (fuel + 1) n start resultPtr p m =
      some ((.tail n start resultPtr, p), m) := by
  rw [chunkLoopAt, bind_eq_some (searchAt_eq hrule start), hr]
  rfl

/-- The loop over the chunks. -/
theorem Slots.chunkLoopAt (E : RegexEngine) (keepEmpty : Bool) (hrule : Walks m rule R)
    (hresult : Walks m result S) (h : ScalarSlots m₀ ownRule ownResult m p fc)
    (hdata : slotText fc.argIn = data) (fuel n rulePtr resultPtr : Nat) :
    Yields (chunkLoopAt E keepEmpty rule result fuel n rulePtr resultPtr p) m fun e m' =>
      Kept m m' ∧
        ScalarSlots m₀ (ownRule ∨ 0 < fuel ∧ (searchSplitToken (R.drop rulePtr)).isSome = true)
          ownResult m' e.2 (chunkLoop E keepEmpty fuel n (R.drop rulePtr) (S.drop resultPtr) fc).2 ∧
        EndIs E data m₀ m' e.2 R S e.1
          (chunkLoop E keepEmpty fuel n (R.drop rulePtr) (S.drop resultPtr) fc).1 := by
  induction fuel generalizing ownRule ownResult m n rulePtr resultPtr p fc with
  | zero =>
    refine .pure ⟨.refl m, h.imp ?_ id, .out ⟨.none m₀ m p, fun hraised => by cases hraised⟩⟩
    rintro (hown | ⟨hfuel, -⟩)
    · exact hown
    · exact absurd hfuel (lt_irrefl 0)
  | succ fuel ih =>
    rw [Regexp.chunkLoopAt, chunkLoop]
    refine .step (searchAt_eq hrule rulePtr) ?_
    cases hr : searchSplitToken (R.drop rulePtr) with
    | none =>
      refine .pure ⟨.refl m, h.imp ?_ id, .tail n rulePtr resultPtr⟩
      rintro (hown | ⟨-, hsome⟩)
      · exact hown
      · cases hsome
    | some i =>
      -- from here on there is a chunk of the call's own in the slot of the rule
      simp only [Option.map_some]
      refine (h.storeRule hrule rulePtr (rulePtr + i)).bind ?_
      rintro p₁ m₁ ⟨hkept₁, h₁⟩
      rw [slice_eq_take] at h₁
      refine .step (searchAt_eq (hresult.kept hkept₁) resultPtr) ?_
      cases hs : searchSplitToken (S.drop resultPtr) with
      | none =>
        simp only [Option.map_none]
        refine (h₁.storeLastResult (hresult.kept hkept₁) n resultPtr).bind ?_
        rintro p₂ m₂ ⟨hkept₂, h₂⟩
        refine (h₂.applyAt E true keepEmpty (slotText_lastResult n _ hdata)).bind ?_
        rintro r m₃ ⟨hkept₃, h₃, -, hret⟩
        exact .pure ⟨(hkept₁.trans hkept₂).trans hkept₃, h₃.imp (fun _ => trivial) id,
          .out (hret m₀ h₂.kept.next_le)⟩
      | some j =>
        simp only [Option.map_some]
        refine (h₁.storeResult (hresult.kept hkept₁) resultPtr (resultPtr + j)).bind ?_
        rintro p₂ m₂ ⟨hkept₂, -, h₂⟩
        rw [slice_eq_take] at h₂
        refine (h₂.applyAt E false keepEmpty hdata).bind ?_
        rintro r m₃ ⟨hkept₃, h₃, hmatched, hret⟩
        have hkept := (hkept₁.trans hkept₂).trans hkept₃
        have hown : ScalarSlots m₀ (ownRule ∨ 0 < fuel + 1 ∧ (some i).isSome = true) ownResult m₃
            p₂ _ :=
          h₃.imp (fun _ => trivial) fun _ => trivial
        simp only [hmatched, behind_iff hrule, behind_iff hresult]
        -- the same five ways out of a round, or into the next one
        split
        · exact .pure ⟨hkept, hown, .out (hret m₀ h₂.kept.next_le)⟩
        · split
          · exact .pure ⟨hkept, hown, .out (hret m₀ h₂.kept.next_le)⟩
          · split
            · exact .pure ⟨hkept, hown, .out (hret m₀ h₂.kept.next_le)⟩
            · split
              · exact .pure ⟨hkept, hown, .out (hret m₀ h₂.kept.next_le)⟩
              · have hnext := ih (hrule.kept hkept) (hresult.kept hkept) h₃ hdata (n + 1)
                  (rulePtr + i + regexpSplitTokenLen) (resultPtr + j + regexpSplitTokenLen)
                rw [drop_behind, drop_behind] at hnext
                refine hnext.mono ?_
                rintro e m₄ ⟨hkept₄, h₄, hend⟩
                exact ⟨hkept.trans hkept₄, h₄.imp (fun _ => .inl trivial) fun _ => trivial, hend⟩

/-- The slots behind a loop that found no token: a chunk of the result is in its slot, if it has
one. -/
structure Unsplit (m₀ : Memory Block) (p p' : ArgSlots Ptr) (s : Bytes) : Prop where
  rule : p'.argRule = p.argRule
  result_kept : searchSplitToken s = none → p'.argResult = p.argResult
  result_new : (searchSplitToken s).isSome = true → New m₀ p'.argResult

/-- The slots for the pair behind the loop. -/
theorem Slots.tailArgsAt (hrule : Walks m rule R) (hresult : Walks m result S)
    (h : ScalarSlots m₀ ownRule ownResult m p fc) (n rulePtr resultPtr : Nat) :
    Yields (tailArgsAt rule result n rulePtr resultPtr p) m fun p' m' => Kept m m' ∧
      ScalarSlots m₀ ownRule ownResult m' p' (tailArgs n (R.drop rulePtr) (S.drop resultPtr) fc) ∧
      (n = 0 → Unsplit m₀ p p' (S.drop resultPtr)) := by
  rw [Regexp.tailArgsAt, tailArgs]
  refine .step (searchAt_eq hresult resultPtr) ?_
  cases hs : searchSplitToken (S.drop resultPtr) with
  | none =>
    simp only [Option.map_none, if_true]
    refine .step (b := p) rfl ?_
    split
    · rename_i hn
      refine (h.storeRule hrule rulePtr rule.stop).bind ?_
      rintro p₁ m₁ ⟨hkept₁, h₁⟩
      refine (h₁.storeResult (hresult.kept hkept₁) resultPtr result.stop).mono ?_
      rintro p₂ m₂ ⟨hkept₂, -, h₂⟩
      rw [slice_eq_drop hrule, slice_eq_drop hresult] at h₂
      exact ⟨hkept₁.trans hkept₂, h₂.imp (fun _ => trivial) fun _ => trivial,
        fun hzero => absurd hzero hn⟩
    · refine .pure ⟨.refl m, h, fun _ => ⟨rfl, fun _ => rfl, ?_⟩⟩
      rw [hs]
      intro hsome
      cases hsome
  | some j =>
    simp only [Option.map_some, reduceCtorEq, if_false]
    refine (h.storeResult hresult resultPtr (resultPtr + j)).bind ?_
    rintro p₁ m₁ ⟨hkept₁, hslot₁, h₁⟩
    rw [slice_eq_take] at h₁
    split
    · rename_i hn
      refine (h₁.storeRule (hrule.kept hkept₁) rulePtr rule.stop).bind ?_
      rintro p₂ m₂ ⟨hkept₂, h₂⟩
      rw [slice_eq_drop hrule] at h₂
      exact .pure ⟨hkept₁.trans hkept₂, h₂.imp (fun _ => trivial) fun _ => trivial,
        fun hzero => absurd hzero hn⟩
    · refine .pure ⟨hkept₁, h₁.imp id fun _ => trivial, fun _ => ⟨hslot₁, ?_, ?_⟩⟩
      · rw [hs]
        intro hnone
        cases hnone
      · exact fun _ => h₁.result_new trivial

/-- The lines behind a loop. -/
theorem Slots.finishChunksAt (E : RegexEngine) (final keepEmpty : Bool) (hrule : Walks m rule R)
    (hresult : Walks m result S) {e : ChunksEndAt × ArgSlots Ptr} {e' : ChunksEnd × FcInfo Varlena}
    (h : ScalarSlots m₀ ownRule ownResult m e.2 e'.2) (hdata : slotText e'.2.argIn = data)
    {k : Memory Block} (hk : k.next ≤ m.next) (hend : EndIs E data k m e.2 R S e.1 e'.1) :
    Yields (finishChunksAt E final keepEmpty rule result e) m fun r m' => Kept m m' ∧
      ScalarSlots m₀ ownRule ownResult m' r.2 (finishChunks E final keepEmpty e').2 ∧
      AppliedIs E data k m' r.2 r.1 (finishChunks E final keepEmpty e').1 := by
  obtain ⟨e, p⟩ := e
  obtain ⟨e', fc⟩ := e'
  cases hend with
  | out hret => exact .pure ⟨.refl m, h, hret⟩
  | tail n rulePtr resultPtr =>
    refine (h.tailArgsAt hrule hresult n rulePtr resultPtr).bind ?_
    rintro p₁ m₁ ⟨hkept₁, h₁, -⟩
    have hdata₁ : slotText (tailArgs n (R.drop rulePtr) (S.drop resultPtr) fc).argIn = data := by
      rw [(sameInputs_tailArgs ..).argIn]
      exact hdata
    refine (h₁.applyAt E final keepEmpty hdata₁).bind ?_
    rintro r m₂ ⟨hkept₂, h₂, -, hret⟩
    exact .pure ⟨hkept₁.trans hkept₂, h₂, hret k (Nat.le_trans hk hkept₁.next_le)⟩

/-- The texts of the slots, to be walked through. -/
theorem yields_bufferOf {slot : Option Ptr} {value : Option Varlena} (h : InSlot m slot value) :
    Yields (bufferOf slot) m fun buf m' => Kept m m' ∧ Walks m' buf (slotText value) := by
  refine (yields_getTextP h).bind ?_
  rintro a m₁ ⟨hkept₁, ha⟩
  refine (yields_getTextP (h.kept hkept₁)).bind ?_
  rintro b m₂ ⟨hkept₂, hb⟩
  exact .step (dataAt_eq hb) (.pure ⟨hkept₁.trans hkept₂, ha.kept hkept₂, rfl⟩)

/-- The loop and what follows it. -/
theorem Slots.processChunksAt (E : RegexEngine) (keepEmpty : Bool)
    (h : ScalarSlots m₀ ownRule ownResult m p fc) :
    Yields (processChunksAt E keepEmpty p) m fun r m' => Kept m m' ∧
      ScalarSlots m₀ (ownRule ∨ (searchSplitToken fc.ruleText).isSome = true) ownResult m' r.2
        (processChunks E keepEmpty fc).2 ∧
      RetIs m₀ m' r.2 r.1.ret (processChunks E keepEmpty fc).1 ∧
      (searchSplitToken fc.ruleText = none → Unsplit m₀ p r.2 fc.resultText) := by
  refine (yields_bufferOf h.argRule).bind ?_
  rintro rule m₁ ⟨hkept₁, hrule⟩
  refine (yields_bufferOf (h.argResult.kept hkept₁)).bind ?_
  rintro result m₂ ⟨hkept₂, hresult⟩
  have hkept := hkept₁.trans hkept₂
  have h₂ := h.mono hkept
  rcases hr : searchSplitToken fc.ruleText with _ | i
  · -- the loop ends at once, with the slots as they are
    have hloop := chunkLoopAt_of_no_rule E keepEmpty result 9 0 0 p (hrule.kept hkept₂)
      ((congrArg searchSplitToken (List.drop_zero (l := fc.ruleText))).trans hr)
    have htail := h₂.tailArgsAt (hrule.kept hkept₂) hresult 0 0 0
    rw [List.drop_zero, List.drop_zero] at htail
    refine .step hloop (htail.bind ?_)
    rintro p₃ m₃ ⟨hkept₃, h₃, hunsplit⟩
    refine (h₃.applyAt E true keepEmpty rfl).bind ?_
    rintro r m₄ ⟨hkept₄, h₄, -, hret⟩
    have hprocess : processChunks E keepEmpty fc =
        ((applyTextregexreplaceNoopt E (tailArgs 0 fc.ruleText fc.resultText fc) true
          keepEmpty).ret, tailArgs 0 fc.ruleText fc.resultText fc) := by
      rw [processChunks, show regexpSplitMaxTokens = 9 + 1 from rfl, chunkLoop_of_no_rule hr]
      rfl
    rw [hprocess]
    refine .pure ⟨(hkept.trans hkept₃).trans hkept₄, h₄.imp ?_ id,
      (hret m₀ h₃.kept.next_le).toRetIs, fun _ => hunsplit rfl⟩
    rintro (hown | hsome)
    · exact hown
    · cases hsome
  · have hloop := h₂.chunkLoopAt E keepEmpty (hrule.kept hkept₂) hresult rfl regexpSplitMaxTokens
      0 0 0
    rw [List.drop_zero, List.drop_zero] at hloop
    have hsame := sameInputs_chunkLoop E keepEmpty regexpSplitMaxTokens 0 fc.ruleText
      fc.resultText fc
    refine hloop.bind ?_
    rintro e m₃ ⟨hkept₃, h₃, hend⟩
    refine (h₃.finishChunksAt E true keepEmpty ((hrule.kept hkept₂).kept hkept₃)
      (hresult.kept hkept₃) (congrArg slotText hsame.argIn) h₃.kept.next_le hend).mono ?_
    rintro r m₄ ⟨hkept₄, h₄, hret⟩
    refine ⟨(hkept.trans hkept₃).trans hkept₄, h₄.imp ?_ id, hret.toRetIs,
      fun hnone => by cases hnone⟩
    refine Or.imp_right fun _ => ⟨by decide, ?_⟩
    rw [show slotText fc.argRule = fc.ruleText from rfl, hr]
    rfl

end Loop

/-! ## Whole calls -/

/-- The slots point to the arguments of `fcinfo`. -/
structure ShowsWith {ι κ : Type} (In : ι → κ → Prop) (m : Memory Block) (p : ArgSlots ι)
    (fc : FcInfo κ) : Prop where
  argIn : Option.Rel In p.argIn fc.argIn
  argRule : Option.Rel (Holds m) p.argRule fc.argRule
  argResult : Option.Rel (Holds m) p.argResult fc.argResult
  keepEmpty : p.keepEmpty = fc.keepEmpty
  vars : p.vars = fc.vars

/-- The slots of a call with one text as its input. -/
abbrev Shows (m : Memory Block) : ArgSlots Ptr → FcInfo Varlena → Prop := ShowsWith (Holds m) m

/-- The slots that a call leaves, which has saved some of them: one that is saved, or has no chunk
stored in it, has the caller's pointer; another one points to the call's own. -/
structure SlotPointers (m : Memory Block) (p p' : ArgSlots Ptr) (saved : Saved) (r s : Bytes) :
    Prop where
  rule_ne : p'.argRule ≠ none
  result_ne : p'.argResult ≠ none
  rule_kept : saved.origRule ≠ none ∨ searchSplitToken r = none → p'.argRule = p.argRule
  rule_new : saved.origRule = none → (searchSplitToken r).isSome = true → New m p'.argRule
  result_kept : saved.origResult ≠ none ∨ searchSplitToken r = none ∧ searchSplitToken s = none →
    p'.argResult = p.argResult
  result_new : saved.origResult = none → searchSplitToken r = none →
    (searchSplitToken s).isSome = true → New m p'.argResult

/-- The slots of the rule and the result have the pointers that they had. -/
structure SlotsKept (p p' : ArgSlots Ptr) : Prop where
  argRule : p'.argRule = p.argRule
  argResult : p'.argResult = p.argResult

theorem SlotsKept.refl (p : ArgSlots Ptr) : SlotsKept p p := ⟨rfl, rfl⟩

/-- A call: the caller's objects are as they were, what is returned is a new text, and the slots
point to these texts. -/
structure CallShows (m : Memory Block) (r : Option Ptr × ArgSlots Ptr) (m' : Memory Block)
    (call : Option Bytes × FcInfo Varlena) : Prop where
  kept : Kept m m'
  ret : NewText m m' r.1 call.1
  slots : Shows m' r.2 call.2

section Calls

variable {m m' : Memory Block} {p : ArgSlots Ptr} {fc : FcInfo Varlena}

theorem rel_kept {slot : Option Ptr} {value : Option Varlena}
    (h : Option.Rel (Holds m) slot value) (hkept : Kept m m') :
    Option.Rel (Holds m') slot value := by
  cases h with
  | none => exact .none
  | some hv => exact .some (hv.kept hkept)

theorem Shows.kept (h : Shows m p fc) (hkept : Kept m m') : Shows m' p fc :=
  ⟨rel_kept h.argIn hkept, rel_kept h.argRule hkept, rel_kept h.argResult hkept, h.keepEmpty,
    h.vars⟩

theorem inSlot_of_rel {slot : Option Ptr} {value : Option Varlena} {v : Varlena}
    (h : Option.Rel (Holds m) slot value) (hvalue : value = some v) : InSlot m slot value := by
  cases h with
  | none => cases hvalue
  | some hv => exact ⟨_, _, rfl, rfl, hv⟩

theorem rel_none {ι κ : Type} {In : ι → κ → Prop} {slot : Option ι} {value : Option κ}
    (h : Option.Rel In slot value) (hvalue : value = none) : slot = none := by
  cases h with
  | none => rfl
  | some => cases hvalue

theorem exists_of_rel {ι κ : Type} {In : ι → κ → Prop} {slot : Option ι} {value : Option κ} {v : κ}
    (h : Option.Rel In slot value) (hvalue : value = some v) : ∃ a, slot = some a ∧ In a v := by
  cases h with
  | none => cases hvalue
  | some hv =>
    obtain rfl := Option.some.inj hvalue
    exact ⟨_, rfl, hv⟩

/-- A call whose arguments are not `NULL`. -/
theorem Shows.loaded (h : Shows m p fc) {v rule result : Varlena} (hin : fc.argIn = some v)
    (hrule : fc.argRule = some rule) (hresult : fc.argResult = some result) :
    Loaded (InSlot m) m p fc :=
  ⟨inSlot_of_rel h.argIn hin, inSlot_of_rel h.argRule hrule, inSlot_of_rel h.argResult hresult,
    h.keepEmpty, h.vars⟩

theorem Loaded.shows (h : Loaded (InSlot m) m' p fc) (hkept : Kept m m') : Shows m' p fc :=
  ⟨(h.argIn.kept hkept).rel, h.argRule.rel, h.argResult.rel, h.keepEmpty, h.vars⟩

theorem yields_returnInput (h : Shows m p fc) {v : Varlena} (hin : fc.argIn = some v) :
    Yields (returnInput p) m fun r m' =>
      CallShows m r m' (some (getInCopy fc), fc) ∧ r.2 = p := by
  refine (yields_getInCopyAt (inSlot_of_rel h.argIn hin)).bind ?_
  rintro a m₁ ⟨hkept, hnew, ha⟩
  exact .pure ⟨⟨hkept, .some ⟨hnew, ha⟩, h.kept hkept⟩, rfl⟩

theorem rel_none_iff {slot : Option Ptr} {value : Option Varlena}
    (h : Option.Rel (Holds m) slot value) : slot = none ↔ value = none := by
  cases h with
  | none => exact iff_of_true rfl rfl
  | some => exact iff_of_false (Option.some_ne_none _) (Option.some_ne_none _)

/-- What is restored, against what is in the slots at each point of the call. -/
theorem slotPointers {p₁ p₂ p₃ : ArgSlots Ptr} {saved : SavedPtr} {saved' : Saved}
    {ownResult : Prop} {fc' fc'' : FcInfo Varlena} {m'' : Memory Block} {r s : Bytes}
    (hsaved : SavedIs m saved saved') (hprepared : PreparedFrom p saved p₁)
    (hslots : ScalarSlots m (saved.origRule ≠ none ∨ (searchSplitToken r).isSome = true) ownResult
      m' p₂ fc')
    (hunsplit : searchSplitToken r = none → Unsplit m p₁ p₂ s)
    (hloaded : Loaded (InSlot m) m'' p₃ fc'')
    (hrule : p₃.argRule = saved.origRule.or p₂.argRule)
    (hresult : p₃.argResult = saved.origResult.or p₂.argResult) :
    SlotPointers m p p₃ saved' r s := by
  have hruleNone := rel_none_iff hsaved.rule
  have hresultNone := rel_none_iff hsaved.result
  have hor : ∀ {orig : Option Ptr} (slot slot' : Option Ptr), orig ≠ none →
      orig.or slot = orig.or slot' := by
    intro orig slot slot' hne
    cases orig with
    | none => exact absurd rfl hne
    | some => rfl
  constructor
  · exact hloaded.argRule.ne_none
  · exact hloaded.argResult.ne_none
  · rintro (hne | hr)
    · rw [hrule, ← hprepared.rule]
      exact hor _ _ (mt hruleNone.mp hne)
    · rw [hrule, (hunsplit hr).rule, hprepared.rule]
  · intro hnone hsome
    rw [hrule, hruleNone.mpr hnone, Option.none_or]
    exact hslots.rule_new (.inr hsome)
  · rintro (hne | ⟨hr, hs⟩)
    · rw [hresult, ← hprepared.result]
      exact hor _ _ (mt hresultNone.mp hne)
    · rw [hresult, (hunsplit hr).result_kept hs, hprepared.result]
  · intro hnone hr hsome
    rw [hresult, hresultNone.mpr hnone, Option.none_or]
    exact (hunsplit hr).result_new hsome

/-- What comes behind the checks: the slots are prepared, the body runs, and the slots are
restored. -/
theorem yields_restored (E : RegexEngine) (rand : Nat → Nat) (h : Loaded (InSlot m) m p fc)
    {rule result : Varlena} (hrule : fc.argRule = some rule)
    (hresult : fc.argResult = some result) :
    Yields (do
      let (saved, fc) ← prepareArgsAt rand p
      let (applied, fc) ← processChunksAt E fc.keepsEmpty fc
      let fc ← restoreArgsAt saved fc
      let ret ← orInputAt applied.ret fc
      pure (some ret, fc)) m fun r m' =>
        CallShows m r m'
          (let (saved, fc) := prepareArgs rand rule result fc
          let (ret, fc) := processChunks E fc.keepsEmpty fc
          let fc := restoreArgs saved fc
          (some (ret.getD (getInCopy fc)), fc)) ∧
        SlotPointers m p r.2 (prepareArgs rand rule result fc).1
          (prepareArgs rand rule result fc).2.ruleText
          (prepareArgs rand rule result fc).2.resultText := by
  refine (h.prepareArgsAt rand hrule hresult).bind ?_
  rintro ⟨saved, p₁⟩ m₁ ⟨hslots, hsaved, hprepared⟩
  have hkeep : p₁.keepsEmpty = (prepareArgs rand rule result fc).2.keepsEmpty :=
    congrArg (fun o => Option.getD o false) hslots.keepEmpty
  show Yields (processChunksAt E p₁.keepsEmpty p₁ >>= _) m₁ _
  rw [hkeep]
  refine (hslots.processChunksAt E (prepareArgs rand rule result fc).2.keepsEmpty).bind ?_
  rintro ⟨⟨ret, matched, raised⟩, p₂⟩ m₂ ⟨-, hslots₂, hret, hunsplit⟩
  refine ((hslots₂.imp .inl id).restoreArgsAt hsaved).bind ?_
  rintro p₃ m₃ ⟨hkept, hloaded, hruleSlot, hresultSlot, hcells⟩
  have hpointers : SlotPointers m p p₃ (prepareArgs rand rule result fc).1
      (prepareArgs rand rule result fc).2.ruleText
      (prepareArgs rand rule result fc).2.resultText :=
    slotPointers hsaved hprepared hslots₂ hunsplit hloaded hruleSlot hresultSlot
  have hret' : NewText m m₃ ret (processChunks E (prepareArgs rand rule result fc).2.keepsEmpty
      (prepareArgs rand rule result fc).2).1 := by
    have htext := hret.text
    have hapart := hret.apart
    dsimp only at htext hapart
    generalize (processChunks E _ _).1 = t at htext ⊢
    cases htext with
    | none => exact .none
    | @some a t hnew =>
      obtain ⟨hruleNe, hresultNe⟩ := hapart a rfl
      exact .some ⟨hnew.1, (hcells a hruleNe hresultNe).trans hnew.2⟩
  dsimp only
  generalize (processChunks E _ _).1 = t at hret' ⊢
  cases hret' with
  | @some a t hnew => exact .pure ⟨⟨hkept, .some hnew, hloaded.shows hkept⟩, hpointers⟩
  | none =>
    refine (yields_getInCopyAt (hloaded.argIn.kept hkept)).bind ?_
    rintro a m₄ ⟨hkept₄, hnew, ha⟩
    exact .pure ⟨⟨hkept.trans hkept₄, .some ⟨Nat.le_trans hkept.next_le hnew, ha⟩,
      (hloaded.shows hkept).kept hkept₄⟩, hpointers⟩

/-- A call that gets to its chunks: no argument is `NULL`, and the rule is not empty. -/
structure Replaces (fc : FcInfo Varlena) (rule result : Varlena) : Prop where
  argIn : fc.argIn ≠ none
  argRule : fc.argRule = some rule
  argResult : fc.argResult = some result
  rule_ne : rule.text ≠ []

/-- Every other call returns its input and leaves the slots alone. -/
theorem yields_unreplaced (E : RegexEngine) (rand : Nat → Nat) (h : Shows m p fc)
    (hnot : ∀ rule result, ¬ Replaces fc rule result) :
    Yields (regexpReplaceRandNooptAt E rand p) m fun r m' =>
      CallShows m r m' (regexpReplaceRandNoopt E rand fc) ∧ r.2 = p := by
  rw [regexpReplaceRandNooptAt, regexpReplaceRandNoopt]
  rcases hin : fc.argIn with _ | v
  · rw [rel_none h.argIn hin]
    exact .pure ⟨⟨.refl m, .none, h⟩, rfl⟩
  obtain ⟨a, ha, -⟩ := exists_of_rel h.argIn hin
  rw [ha]
  rcases hrule : fc.argRule with _ | rule
  · rw [rel_none h.argRule hrule]
    exact yields_returnInput h hin
  obtain ⟨b, hb, hruleHolds⟩ := exists_of_rel h.argRule hrule
  rw [hb]
  rcases hresult : fc.argResult with _ | result
  · rw [rel_none h.argResult hresult]
    exact yields_returnInput h hin
  obtain ⟨c, hc, -⟩ := exists_of_rel h.argResult hresult
  rw [hc]
  have hempty : rule.dataAny.length = 0 := by
    by_contra hlen
    refine hnot rule result ⟨?_, hrule, hresult, ?_⟩
    · rw [hin]
      exact Option.some_ne_none v
    · exact fun htext => hlen (List.length_eq_zero_iff.mpr (rule.dataAny_eq_nil_iff.mpr htext))
  refine .step (dataAt_eq hruleHolds) ?_
  dsimp only
  rw [if_pos hempty, if_pos hempty]
  exact yields_returnInput h hin

theorem yields_replaced (E : RegexEngine) (rand : Nat → Nat) (h : Shows m p fc)
    {rule result : Varlena} (hreplaces : Replaces fc rule result) :
    Yields (regexpReplaceRandNooptAt E rand p) m fun r m' =>
      CallShows m r m' (regexpReplaceRandNoopt E rand fc) ∧
        SlotPointers m p r.2 (prepareArgs rand rule result fc).1
          (prepareArgs rand rule result fc).2.ruleText
          (prepareArgs rand rule result fc).2.resultText := by
  obtain ⟨hinNe, hrule, hresult, hne⟩ := hreplaces
  obtain ⟨v, hin⟩ := Option.ne_none_iff_exists'.mp hinNe
  obtain ⟨a, ha, -⟩ := exists_of_rel h.argIn hin
  obtain ⟨b, hb, hruleHolds⟩ := exists_of_rel h.argRule hrule
  obtain ⟨c, hc, -⟩ := exists_of_rel h.argResult hresult
  have hlen : rule.dataAny.length ≠ 0 :=
    mt List.length_eq_zero_iff.mp (mt rule.dataAny_eq_nil_iff.mp hne)
  rw [regexpReplaceRandNooptAt, ha, hb, hc, regexpReplaceRandNoopt, hin, hrule, hresult]
  refine .step (dataAt_eq hruleHolds) ?_
  dsimp only
  rw [if_neg hlen, if_neg hlen]
  exact yields_restored E rand (h.loaded hin hrule hresult) hrule hresult

end Calls

/-- A call with two pairs and a random string. -/
def pairsCall : FcInfo Varlena where
  argIn := some (.short (ascii "b"))
  argRule := some (.plain (ascii "a||b"))
  argResult := some (.plain (ascii "x||r(2)"))
  keepEmpty := some false
  vars := none

/-- What its slots point to. -/
def pairsMemory : Memory Block :=
  .ofList [.text (.short (ascii "b")), .text (.plain (ascii "a||b")),
    .text (.plain (ascii "x||r(2)"))]

def pairsSlots : ArgSlots Ptr where
  argIn := some 0
  argRule := some 1
  argResult := some 2
  keepEmpty := some false
  vars := none

theorem shows_pairs : Shows pairsMemory pairsSlots pairsCall :=
  ⟨.some rfl, .some rfl, .some rfl, rfl, rfl⟩

theorem replacedOr_some (keepEmpty : Bool) (input : Bytes) (ret : Option Bytes) :
    replacedOr (some input) keepEmpty ret = some (orInput keepEmpty input ret) := by
  cases ret with
  | none => rfl
  | some ret =>
    rw [replacedOr, orInput]
    split
    · rfl
    · rfl

/-- And so is one of `regexp_replace_rand`, which always leaves the caller's pointers in its
slots. -/
theorem yields_regexpReplaceRandAt (E : OptionEngine) (rand : Nat → Nat) {m : Memory Block}
    {p : ArgSlots Ptr} {fc : FcInfo Varlena} {argOpt : Option Ptr} {opt : Option Varlena}
    (h : Shows m p fc) (hopt : Option.Rel (Holds m) argOpt opt) :
    Yields (regexpReplaceRandAt E rand argOpt p) m fun r m' =>
      CallShows m r m' (regexpReplaceRand E rand opt fc) ∧ SlotsKept p r.2 := by
  have hinput : ∀ {v : Varlena}, fc.argIn = some v → Yields (returnInput p) m fun r m' =>
      CallShows m r m' (some (getInCopy fc), fc) ∧ SlotsKept p r.2 := by
    intro v hin
    refine (yields_returnInput h hin).mono ?_
    rintro r m' ⟨hcall, rfl⟩
    exact ⟨hcall, .refl r.2⟩
  unfold regexpReplaceRandAt regexpReplaceRand
  rcases hin : fc.argIn with _ | v
  · rw [rel_none h.argIn hin]
    exact .pure ⟨⟨.refl m, .none, h⟩, .refl p⟩
  obtain ⟨a, ha, hv⟩ := exists_of_rel h.argIn hin
  rw [ha]
  rcases hrule : fc.argRule with _ | rule
  · rw [rel_none h.argRule hrule]
    exact hinput hin
  obtain ⟨b, hb, hruleHolds⟩ := exists_of_rel h.argRule hrule
  rw [hb]
  cases hopt with
  | none => exact .pure ⟨⟨.refl m, .none, h⟩, .refl p⟩
  | @some d opt hoptHolds =>
  rcases hresult : fc.argResult with _ | result
  · rw [rel_none h.argResult hresult]
    exact hinput hin
  obtain ⟨c, hc, -⟩ := exists_of_rel h.argResult hresult
  rw [hc]
  refine .step (dataAt_eq hruleHolds) ?_
  dsimp only
  split
  · exact hinput hin
  refine ((h.loaded hin hrule hresult).prepareArgsAt rand hrule hresult).bind ?_
  rintro ⟨saved, p₁⟩ m₁ ⟨hslots, hsaved, hprepared⟩
  have hkeep : p₁.keepsEmpty = (prepareArgs rand rule result fc).2.keepsEmpty :=
    congrArg (fun o => Option.getD o false) hslots.keepEmpty
  refine .step (textAt_eq (hoptHolds.kept hslots.kept)) ?_
  dsimp only
  rw [hkeep]
  refine (yields_replaceOrInput _ true _ hslots.loaded).bind ?_
  rintro ⟨ret, raised⟩ m₂ ⟨hkept₂, hret, -⟩
  refine ((hslots.mono hkept₂).restoreArgsAt hsaved).bind ?_
  rintro p₃ m₃ ⟨hkept, hloaded, hruleSlot, hresultSlot, hcells⟩
  rw [if_pos rfl, replacedOr_some] at hret
  cases hret with
  | @some a t hnew =>
    -- the new text is in neither slot
    have hruleNe : p₁.argRule ≠ some a := fun hsame =>
      absurd (hslots.argRule.lt_next hsame) (Nat.not_lt.mpr hnew.1)
    have hresultNe : p₁.argResult ≠ some a := fun hsame =>
      absurd (hslots.argResult.lt_next hsame) (Nat.not_lt.mpr hnew.1)
    have hle : m.next ≤ a := Nat.le_trans hslots.kept.next_le hnew.1
    exact .pure ⟨⟨hkept, .some ⟨hle, (hcells a hruleNe hresultNe).trans hnew.2⟩,
      hloaded.shows hkept⟩, ⟨hruleSlot.trans hprepared.rule, hresultSlot.trans hprepared.result⟩⟩

end YetiPgExt.Regexp
