import YetiPgExt.Library.Memory
import YetiPgExt.Regexp.ArrayNoopt
import YetiPgExt.Regexp.ReplaceRandOption

/-!
# The pointers behind the slots

The functions of `f_regexp_replace_rand.c` once more, as they handle memory: the slots of `fcinfo`
are pointers, a text that is not stored plainly is copied before it is read, the chunks and what
replaces an argument are allocated, and a few of these objects are freed. A pointer to nothing that
is read or freed has no result.

A pointer into a text is the address of the text and an offset. The buffers in `replace` and
`replace_placeholders` and those of the regular expression library are not modelled.

A call is entered in an ordinary memory context. An error that is caught leaves `ErrorContext` the
current one, and `FlushErrorState` frees what is in it. The forms for one text catch one error at
most, with nothing of theirs in `ErrorContext`; the form for arrays goes on with its elements in it,
and frees at the next error what it has allocated since the last one.
-/

set_option autoImplicit false

namespace YetiPgExt.Regexp

open YetiPgExt.Library YetiPgExt.Postgres

/-! ## Objects -/

/-- What is allocated: a `text`, the wide characters of one, or an array of texts. -/
inductive Block where
  | text (v : Varlena)
  | wide (source : Bytes)
  | array (elements : List (Option Bytes))
  deriving DecidableEq

/-- An address. -/
abbrev Ptr := Nat

/-- A program of the functions. -/
abbrev Prog := Mem Block

/-- `fcinfo`, with the pointers in its slots. -/
structure ArgSlots (ι : Type) where
  argIn : Option ι
  argRule : Option Ptr
  argResult : Option Ptr
  keepEmpty : Option Bool
  vars : Option Jsonb

/-- `keep_empty` -/
def ArgSlots.keepsEmpty {ι : Type} (fc : ArgSlots ι) : Bool := fc.keepEmpty.getD false

/-- The pointer in a slot. -/
def slotPtr (slot : Option Ptr) : Prog Ptr := fun m => slot.map fun a => (a, m)

/-- The `text` at an address. -/
def textAt (a : Ptr) : Prog Varlena := do
  match ← load a with
  | .text v => pure v
  | .wide _ => failure
  | .array _ => failure

/-- `VARDATA_ANY` and `VARSIZE_ANY_EXHDR` -/
def dataAt (a : Ptr) : Prog Bytes := do
  let v ← textAt a
  pure v.dataAny

/-- The wide characters at an address. -/
def wideAt (a : Ptr) : Prog Bytes := do
  match ← load a with
  | .text _ => failure
  | .wide source => pure source
  | .array _ => failure

/-- `PG_GETARG_TEXT_P`: a text with another header, or stored otherwise, is copied. -/
def getTextP (slot : Option Ptr) : Prog Ptr := do
  let a ← slotPtr slot
  match ← textAt a with
  | .plain _ => pure a
  | v => palloc (.text (.plain v.text))

/-- `get_in_copy` -/
def getInCopyAt (fc : ArgSlots Ptr) : Prog Ptr := do
  let a ← getTextP fc.argIn
  let t ← dataAt a
  palloc (.text (.plain t))

/-- `replace_arg`, up to the store in the slot. -/
def replaceArg (t : Option Ptr) (buf : Ptr) (start stop : Nat) : Prog Ptr := do
  match t with
  | none => pure ()
  | some t => pfree t
  let s ← dataAt buf
  palloc (.text (.plain (slice s start (stop - start))))

/-! ## In front of the chunks -/

section Prepare

variable {ι : Type}

/-- `orig_rule` and `orig_result` -/
structure SavedPtr where
  origRule : Option Ptr
  origResult : Option Ptr

/-- The call of `replace`, which returns its argument if it replaces nothing. -/
def expandRandomAt (rand : Nat → Nat) (fc : ArgSlots ι) : Prog (SavedPtr × ArgSlots ι) := do
  let s ← dataAt (← getTextP fc.argResult)
  let t := replace rand s
  if t.replaced then
    let t ← palloc (.text (.plain t.text))
    pure (⟨none, fc.argResult⟩, { fc with argResult := some t })
  else pure (⟨none, none⟩, fc)

/-- `replace_placeholders`, which reads its argument as it is stored. -/
def replacePlaceholdersAt (slot : Option Ptr) (values : Jsonb) : Prog Ptr := do
  let tpl ← textAt (← slotPtr slot)
  palloc (.text (.plain (replacePlaceholders tpl values)))

/-- What becomes of the result in its slot, if there are random strings in it. -/
def freeReplaced (saved : SavedPtr) (fc : ArgSlots ι) : Prog (Option Ptr) :=
  match saved.origResult with
  | some orig => do
    pfree (← slotPtr fc.argResult)
    pure (some orig)
  | none => pure fc.argResult

/-- The variables in the result and in the rule. -/
def expandVarsAt (saved : SavedPtr) (fc : ArgSlots ι) : Prog (SavedPtr × ArgSlots ι) :=
  match fc.vars with
  | none => pure (saved, fc)
  | some values =>
    if values.isObject then do
      let result ← replacePlaceholdersAt fc.argResult values
      let origResult ← freeReplaced saved fc
      let rule ← replacePlaceholdersAt fc.argRule values
      pure (⟨fc.argRule, origResult⟩, { fc with argRule := some rule, argResult := some result })
    else pure (saved, fc)

def prepareArgsAt (rand : Nat → Nat) (fc : ArgSlots ι) : Prog (SavedPtr × ArgSlots ι) := do
  let (saved, fc) ← expandRandomAt rand fc
  expandVarsAt saved fc

/-- What is put back in a slot. -/
def restoreSlot (orig slot : Option Ptr) : Prog (Option Ptr) :=
  match orig with
  | none => pure slot
  | some orig => do
    pfree (← slotPtr slot)
    pure (some orig)

def restoreArgsAt (saved : SavedPtr) (fc : ArgSlots ι) : Prog (ArgSlots ι) := do
  let rule ← restoreSlot saved.origRule fc.argRule
  let result ← restoreSlot saved.origResult fc.argResult
  pure { fc with argRule := rule, argResult := result }

end Prepare

/-! ## One pair -/

/-- What `apply_textregexreplace_noopt` returns, and its `matched`; and whether it has caught an
error. -/
structure AppliedAt where
  ret : Option Ptr
  matched : Bool
  raised : Bool

/-- The pattern, compiled from its wide characters. -/
def compiles (E : RegexEngine) (fc : ArgSlots Ptr) : Prog (Bool × Bytes) := do
  let pattern ← dataAt (← getTextP fc.argRule)
  let widePattern ← palloc (.wide pattern)
  let chars ← wideAt widePattern
  pfree widePattern
  pure (E.regcomp chars, chars)

/-- The data, matched as wide characters. -/
def matchesData (E : RegexEngine) (regexp : Bytes) (fc : ArgSlots Ptr) : Prog Bool := do
  let data ← dataAt (← getTextP fc.argIn)
  let wideData ← palloc (.wide data)
  let chars ← wideAt wideData
  pfree wideData
  pure (E.regexec regexp chars)

/-- What is returned for no result. -/
def inputIf (final : Bool) (fc : ArgSlots Ptr) : Prog (Option Ptr) :=
  if final then do
    let copy ← getInCopyAt fc
    pure (some copy)
  else pure none

/-- What a function of PostgreSQL returns: a new text, or an error. -/
def returned : Option Bytes → Prog (Option Ptr)
  | none => pure none
  | some ret => do
    let ret ← palloc (.text (.plain ret))
    pure (some ret)

/-- The call of such a function with the texts in the slots. -/
def callReplace (f : (data pattern replacement : Bytes) → Option Bytes) (fc : ArgSlots Ptr) :
    Prog (Option Ptr) := do
  let data ← textAt (← slotPtr fc.argIn)
  let pattern ← textAt (← slotPtr fc.argRule)
  let replacement ← textAt (← slotPtr fc.argResult)
  returned (f data.text pattern.text replacement.text)

/-- The body of the `PG_TRY` and its `PG_CATCH`: `ret`, and whether there was an error. -/
def replaceOrInput (f : (data pattern replacement : Bytes) → Option Bytes) (final keepEmpty : Bool)
    (fc : ArgSlots Ptr) : Prog (Option Ptr × Bool) := do
  match ← callReplace f fc with
  | none =>
    let ret ← inputIf final fc
    pure (ret, true)
  | some ret =>
    let t ← dataAt ret
    if keepEmpty = false ∧ t.length = 0 then
      pfree ret
      let ret ← inputIf final fc
      pure (ret, false)
    else pure (some ret, false)

/-- `apply_textregexreplace_noopt` -/
def applyAt (E : RegexEngine) (fc : ArgSlots Ptr) (final keepEmpty : Bool) : Prog AppliedAt := do
  let (compiled, regexp) ← compiles E fc
  if compiled = false then pure ⟨none, false, false⟩
  else
    let found ← matchesData E regexp fc
    if found = false then
      let ret ← inputIf final fc
      pure ⟨ret, false, false⟩
    else
      let (ret, raised) ← replaceOrInput E.textregexreplaceNoopt final keepEmpty fc
      pure ⟨ret, true, raised⟩

/-! ## The chunks -/

/-- A text that is walked through: its address and its length. -/
structure Buffer where
  ptr : Ptr
  stop : Nat

/-- `VARDATA_ANY` of an argument, and its end. Each is asked for on its own. -/
def bufferOf (slot : Option Ptr) : Prog Buffer := do
  let ptr ← getTextP slot
  let s ← dataAt (← getTextP slot)
  pure ⟨ptr, s.length⟩

/-- `search_split_token` from an offset on: the offset of the token. -/
def searchAt (buf : Buffer) (p : Nat) : Prog (Option Nat) := do
  let s ← dataAt buf.ptr
  pure ((searchSplitToken (slice s p (buf.stop - p))).map (p + ·))

/-- How a loop over the chunks ends. -/
inductive ChunksEndAt where
  | out (applied : AppliedAt)
  | tail (n rulePtr resultPtr : Nat)

/-- The chunk of the rule in its slot; the chunk pointer of the caller is null. -/
def storeRule (buf : Buffer) (start stop : Nat) (fc : ArgSlots Ptr) : Prog (ArgSlots Ptr) := do
  let t ← replaceArg none buf.ptr start stop
  pure { fc with argRule := some t }

def storeResult (buf : Buffer) (start stop : Nat) (fc : ArgSlots Ptr) : Prog (ArgSlots Ptr) := do
  let t ← replaceArg none buf.ptr start stop
  pure { fc with argResult := some t }

/-- The last chunk of the result; in the first round the slot has the whole result. -/
def storeLastResult (n : Nat) (buf : Buffer) (start : Nat) (fc : ArgSlots Ptr) :
    Prog (ArgSlots Ptr) :=
  if n > 0 then storeResult buf start buf.stop fc else pure fc

/-- The loop of `regexp_replace_rand_noopt` over the chunks. -/
def chunkLoopAt (E : RegexEngine) (keepEmpty : Bool) (rule result : Buffer) :
    Nat → Nat → Nat → Nat → ArgSlots Ptr → Prog (ChunksEndAt × ArgSlots Ptr)
  | 0, _, _, _, fc => pure (.out ⟨none, false, false⟩, fc)
  | fuel + 1, n, rulePtr, resultPtr, fc => do
    match ← searchAt rule rulePtr with
    | none => pure (.tail n rulePtr resultPtr, fc)
    | some ruleTokenPos =>
      let fc ← storeRule rule rulePtr ruleTokenPos fc
      match ← searchAt result resultPtr with
      | none =>
        let fc ← storeLastResult n result resultPtr fc
        let applied ← applyAt E fc true keepEmpty
        pure (.out applied, fc)
      | some resultTokenPos =>
        let fc ← storeResult result resultPtr resultTokenPos fc
        let applied ← applyAt E fc false keepEmpty
        if applied.matched then pure (.out applied, fc)
        else if n + 1 ≥ regexpSplitMaxTokens - 1 then pure (.out applied, fc)
        else if ruleTokenPos + regexpSplitTokenLen ≥ rule.stop then pure (.out applied, fc)
        else if resultTokenPos + regexpSplitTokenLen ≥ result.stop then pure (.out applied, fc)
        else
          chunkLoopAt E keepEmpty rule result fuel (n + 1) (ruleTokenPos + regexpSplitTokenLen)
            (resultTokenPos + regexpSplitTokenLen) fc

/-- The slots for the pair behind the last token of the rule. -/
def tailArgsAt (rule result : Buffer) (n rulePtr resultPtr : Nat) (fc : ArgSlots Ptr) :
    Prog (ArgSlots Ptr) := do
  let resultTokenPos ← searchAt result resultPtr
  let fc ← match resultTokenPos with
    | none => pure fc
    | some pos => storeResult result resultPtr pos fc
  if n ≠ 0 then
    let fc ← storeRule rule rulePtr rule.stop fc
    if resultTokenPos = none then storeResult result resultPtr result.stop fc else pure fc
  else pure fc

/-- The lines behind a loop, up to `out`. -/
def finishChunksAt (E : RegexEngine) (final keepEmpty : Bool) (rule result : Buffer) :
    ChunksEndAt × ArgSlots Ptr → Prog (AppliedAt × ArgSlots Ptr)
  | (.out applied, fc) => pure (applied, fc)
  | (.tail n rulePtr resultPtr, fc) => do
    let fc ← tailArgsAt rule result n rulePtr resultPtr fc
    let applied ← applyAt E fc final keepEmpty
    pure (applied, fc)

/-- The loop and what follows it. -/
def processChunksAt (E : RegexEngine) (keepEmpty : Bool) (fc : ArgSlots Ptr) :
    Prog (AppliedAt × ArgSlots Ptr) := do
  let rule ← bufferOf fc.argRule
  let result ← bufferOf fc.argResult
  let e ← chunkLoopAt E keepEmpty rule result regexpSplitMaxTokens 0 0 0 fc
  finishChunksAt E true keepEmpty rule result e

/-- `if(!ret) ret = get_in_copy(fcinfo);` -/
def orInputAt (ret : Option Ptr) (fc : ArgSlots Ptr) : Prog Ptr :=
  match ret with
  | some ret => pure ret
  | none => getInCopyAt fc

/-- A copy of the input, and the slots as they are. -/
def returnInput (fc : ArgSlots Ptr) : Prog (Option Ptr × ArgSlots Ptr) := do
  let ret ← getInCopyAt fc
  pure (some ret, fc)

/-- `regexp_replace_rand_noopt` -/
def regexpReplaceRandNooptAt (E : RegexEngine) (rand : Nat → Nat) (fc : ArgSlots Ptr) :
    Prog (Option Ptr × ArgSlots Ptr) :=
  match fc.argIn, fc.argRule, fc.argResult with
  | none, _, _ => pure (none, fc)
  | some _, none, _ => returnInput fc
  | some _, some _, none => returnInput fc
  | some _, some rule, some _ => do
    let s ← dataAt rule
    if s.length = 0 then returnInput fc
    else
      let (saved, fc) ← prepareArgsAt rand fc
      let (applied, fc) ← processChunksAt E fc.keepsEmpty fc
      let fc ← restoreArgsAt saved fc
      let ret ← orInputAt applied.ret fc
      pure (some ret, fc)

/-- `regexp_replace_rand` -/
def regexpReplaceRandAt (E : OptionEngine) (rand : Nat → Nat) (argOpt : Option Ptr)
    (fc : ArgSlots Ptr) : Prog (Option Ptr × ArgSlots Ptr) :=
  match fc.argIn, fc.argRule, argOpt, fc.argResult with
  | none, _, _, _ => pure (none, fc)
  | some _, none, _, _ => returnInput fc
  | some _, some _, none, _ => pure (none, fc)
  | some _, some _, some _, none => returnInput fc
  | some _, some rule, some opt, some _ => do
    let s ← dataAt rule
    if s.length = 0 then returnInput fc
    else
      let (saved, fc) ← prepareArgsAt rand fc
      let opt ← textAt opt
      let (ret, _) ← replaceOrInput (fun data pattern replacement =>
        E.textregexreplace data pattern replacement opt.text) true fc.keepsEmpty fc
      let fc ← restoreArgsAt saved fc
      pure (ret, fc)

/-! ## The form for arrays -/

/-- The loop of `regexp_replace_rand_array_noopt` over the chunks, for one element. -/
def elementLoopAt (E : RegexEngine) (keepEmpty : Bool) (rule result : Buffer) :
    Nat → Nat → Nat → Nat → ArgSlots Ptr → Prog (ChunksEndAt × ArgSlots Ptr)
  | 0, n, rulePtr, resultPtr, fc => pure (.tail n rulePtr resultPtr, fc)
  | fuel + 1, n, rulePtr, resultPtr, fc => do
    match ← searchAt rule rulePtr with
    | none => pure (.tail n rulePtr resultPtr, fc)
    | some ruleTokenPos =>
      let fc ← storeRule rule rulePtr ruleTokenPos fc
      match ← searchAt result resultPtr with
      | none =>
        let fc ← storeLastResult n result resultPtr fc
        let applied ← applyAt E fc false keepEmpty
        pure (.out applied, fc)
      | some resultTokenPos =>
        let fc ← storeResult result resultPtr resultTokenPos fc
        let applied ← applyAt E fc false keepEmpty
        if applied.matched then pure (.out applied, fc)
        else if n + 1 ≥ regexpSplitMaxTokens - 1 then pure (.tail (n + 1) rulePtr resultPtr, fc)
        else
          let rulePtr := ruleTokenPos + regexpSplitTokenLen
          if rulePtr ≥ rule.stop then pure (.tail (n + 1) rulePtr resultPtr, fc)
          else
            let resultPtr := resultTokenPos + regexpSplitTokenLen
            if resultPtr ≥ result.stop then pure (.tail (n + 1) rulePtr resultPtr, fc)
            else elementLoopAt E keepEmpty rule result fuel (n + 1) rulePtr resultPtr fc

/-- One element that is not `NULL`, with what its last pair returned. -/
def processElementAt (E : RegexEngine) (keepEmpty : Bool) (rule result : Buffer)
    (fc : ArgSlots Ptr) : Prog (AppliedAt × ArgSlots Ptr) := do
  let e ← elementLoopAt E keepEmpty rule result regexpSplitMaxTokens 0 0 0 fc
  finishChunksAt E false keepEmpty rule result e

/-- `if(ret) pfree(DatumGetPointer(ret));` -/
def freeRet (ret : Option Ptr) : Prog Unit :=
  match ret with
  | none => pure ()
  | some ret => pfree ret

/-- `FlushErrorState` behind an error. `since` is the first address that was given out in
`ErrorContext`, if it is the current one. -/
def flushErrorState (since : Option Nat) (raised : Bool) : Prog (Option Nat) :=
  if raised then do
    match since with
    | none => pure ()
    | some start => reset start
    let start ← mark
    pure (some start)
  else pure since

/-- The loop over the elements, with the `ret` of the element before. `accumArrayResult` copies
what it is given into memory of its own, which is not in `ErrorContext`. -/
def processElementsAt (E : RegexEngine) (keepEmpty : Bool) (rule result : Buffer) :
    List (Option Ptr) → Option Ptr → Option Nat → ArgSlots Ptr →
      Prog (List (Option Bytes) × ArgSlots Ptr)
  | [], ret, _, fc => do
    freeRet ret
    pure ([], fc)
  -- `ret` is not freed before a `NULL` element
  | none :: elements, ret, since, fc => do
    let (inserted, fc) ← processElementsAt E keepEmpty rule result elements ret since fc
    pure (none :: inserted, fc)
  | some v :: elements, ret, since, fc => do
    freeRet ret
    let (applied, fc) ← processElementAt E keepEmpty rule result { fc with argIn := some v }
    -- nothing is allocated between the error and here: no pair of this form is the final one
    let since ← flushErrorState since applied.raised
    let element ← textAt (applied.ret.getD v)
    let (inserted, fc) ← processElementsAt E keepEmpty rule result elements applied.ret since fc
    pure (some element.text :: inserted, fc)

/-- The texts of the elements of an array. -/
def elementTexts : List (Option Ptr) → Prog (List (Option Bytes))
  | [] => pure []
  | none :: elements => do
    let texts ← elementTexts elements
    pure (none :: texts)
  | some v :: elements => do
    let element ← textAt v
    let texts ← elementTexts elements
    pure (some element.text :: texts)

/-- `get_in_copy_array`, and the slots as they are. -/
def returnInArray (elements : List (Option Ptr)) (fc : ArgSlots (List (Option Ptr))) :
    Prog (Option Ptr × ArgSlots (List (Option Ptr))) := do
  let texts ← elementTexts elements
  let ret ← palloc (.array texts)
  pure (some ret, fc)

/-- `regexp_replace_rand_array_noopt`. The slot of the input has the elements of the array. -/
def regexpReplaceRandArrayNooptAt (E : RegexEngine) (rand : Nat → Nat)
    (fc : ArgSlots (List (Option Ptr))) : Prog (Option Ptr × ArgSlots (List (Option Ptr))) :=
  match fc.argIn, fc.argRule, fc.argResult with
  | none, _, _ => pure (none, fc)
  | some elements, none, _ => returnInArray elements fc
  | some elements, some _, none => returnInArray elements fc
  | some elements, some rule, some _ => do
    let s ← dataAt rule
    if s.length = 0 then returnInArray elements fc
    else
      let (saved, fc) ← prepareArgsAt rand fc
      let rule ← bufferOf fc.argRule
      let result ← bufferOf fc.argResult
      let (inserted, slots) ← processElementsAt E fc.keepsEmpty rule result elements none none
        { fc with argIn := none }
      let fc ← restoreArgsAt saved { slots with argIn := some elements }
      let ret ← palloc (.array inserted)
      pure (some ret, fc)

end YetiPgExt.Regexp
