import YetiPgExt.Regexp.Placeholders
import YetiPgExt.Regexp.ReplaceRand
import YetiPgExt.Regexp.SplitToken

/-!
# `regexp_replace_rand_noopt`

`f_regexp_replace_rand.c`: the rule and the result are split into chunks, and the input is replaced
by the first pair of chunks whose rule matches it. PostgreSQL's `textregexreplace_noopt` takes its
arguments from `fcinfo`, so the function writes each pair into the argument slots before it calls
it.

The chunk pointers `rule_chunk` and `result_chunk` stay null, because `replace_arg` is given them by
value. Pointers into the rule and the result are modelled by the text from them on.
-/

set_option autoImplicit false

namespace YetiPgExt.Regexp

open YetiPgExt.Library YetiPgExt.Postgres

/-! ## Argument slots -/

/-- `fcinfo`: `none` is a slot that is `NULL`, or that the call does not have. -/
structure FcInfo (ι : Type) where
  argIn : Option ι
  argRule : Option Varlena
  argResult : Option Varlena
  keepEmpty : Option Bool
  vars : Option Jsonb

section Slots

variable {ι : Type}

/-- The text of a slot; it is read only from slots that are not `NULL`. -/
def slotText (slot : Option Varlena) : Bytes := slot.elim [] Varlena.text

/-- `PG_GETARG_TEXT_P(ARG_RULE)` -/
def FcInfo.ruleText (fc : FcInfo ι) : Bytes := slotText fc.argRule

/-- `PG_GETARG_TEXT_P(ARG_RESULT)` -/
def FcInfo.resultText (fc : FcInfo ι) : Bytes := slotText fc.argResult

/-- `replace_arg` on `ARG_RULE` -/
def FcInfo.replaceRule (fc : FcInfo ι) (chunk : Bytes) : FcInfo ι :=
  { fc with argRule := some (.plain chunk) }

/-- `replace_arg` on `ARG_RESULT` -/
def FcInfo.replaceResult (fc : FcInfo ι) (chunk : Bytes) : FcInfo ι :=
  { fc with argResult := some (.plain chunk) }

/-- `keep_empty` -/
def FcInfo.keepsEmpty (fc : FcInfo ι) : Bool := fc.keepEmpty.getD false

/-- `orig_rule` and `orig_result`: the arguments that a call replaces before it looks at the
chunks. -/
structure Saved where
  origRule : Option Varlena
  origResult : Option Varlena

/-- The random strings in the result. -/
def expandRandom (rand : Nat → Nat) (result : Varlena) (fc : FcInfo ι) : Saved × FcInfo ι :=
  let t := replace rand result.text
  if t.replaced then (⟨none, some result⟩, fc.replaceResult t.text)
  else (⟨none, none⟩, fc)

/-- The variables in the result and in the rule. -/
def expandVars (rule : Varlena) (saved : Saved) (fc : FcInfo ι) : Saved × FcInfo ι :=
  match fc.vars with
  | none => (saved, fc)
  | some values =>
    if values.isObject then
      -- the argument to put back is the caller's, not the one with random strings
      let origResult := saved.origResult.or fc.argResult
      let fc := fc.replaceResult (replacePlaceholders (fc.argResult.getD (.plain [])) values)
      (⟨some rule, origResult⟩, fc.replaceRule (replacePlaceholders rule values))
    else (saved, fc)

/-- What the functions of this file do before they look at the chunks. -/
def prepareArgs (rand : Nat → Nat) (rule result : Varlena) (fc : FcInfo ι) : Saved × FcInfo ι :=
  let (saved, fc) := expandRandom rand result fc
  expandVars rule saved fc

/-- What they restore when they are done. -/
def restoreArgs (saved : Saved) (fc : FcInfo ι) : FcInfo ι :=
  { fc with
    argRule := saved.origRule.or fc.argRule
    argResult := saved.origResult.or fc.argResult }

end Slots

/-! ## One pair -/

/-- `get_in_copy` -/
def getInCopy (fc : FcInfo Varlena) : Bytes := slotText fc.argIn

/-- What `apply_textregexreplace_noopt` returns, and its `matched`. -/
structure Applied where
  ret : Option Bytes
  matched : Bool

/-- `apply_textregexreplace_noopt` -/
def applyTextregexreplaceNoopt (E : RegexEngine) (fc : FcInfo Varlena) (final keepEmpty : Bool) :
    Applied :=
  let inCopy := if final then some (getInCopy fc) else none
  -- nothing is returned for a rule that does not compile, even if no pair follows
  if E.regcomp fc.ruleText = false then ⟨none, false⟩
  else if E.regexec fc.ruleText (slotText fc.argIn) = false then ⟨inCopy, false⟩
  else
    match E.textregexreplaceNoopt (slotText fc.argIn) fc.ruleText fc.resultText with
    | some ret => if keepEmpty = false ∧ ret.length = 0 then ⟨inCopy, true⟩ else ⟨some ret, true⟩
    | none => ⟨inCopy, true⟩

/-! ## The chunks -/

/-- How the loop over the chunks ends: it goes to `out`, or the rule has no more tokens. -/
inductive ChunksEnd where
  | out (ret : Option Bytes)
  | tail (n : Nat) (rulePtr resultPtr : Bytes)

/-- The loop over the chunks of the rule and the result. It makes at most
`regexpSplitMaxTokens` rounds. -/
def chunkLoop (E : RegexEngine) (keepEmpty : Bool) :
    Nat → Nat → Bytes → Bytes → FcInfo Varlena → ChunksEnd × FcInfo Varlena
  | 0, _, _, _, fc => (.out none, fc)
  | fuel + 1, n, rulePtr, resultPtr, fc =>
    match searchSplitToken rulePtr with
    | none => (.tail n rulePtr resultPtr, fc)
    | some ruleTokenPos =>
      let fc := fc.replaceRule (rulePtr.take ruleTokenPos)
      match searchSplitToken resultPtr with
      | none =>
        -- the last chunk of the result; in the first round the slot has the whole result
        let fc := if n > 0 then fc.replaceResult resultPtr else fc
        (.out (applyTextregexreplaceNoopt E fc true keepEmpty).ret, fc)
      | some resultTokenPos =>
        let fc := fc.replaceResult (resultPtr.take resultTokenPos)
        let applied := applyTextregexreplaceNoopt E fc false keepEmpty
        if applied.matched then (.out applied.ret, fc)
        -- no pair is left to try: the pair that did not match was the last one
        else if n + 1 ≥ regexpSplitMaxTokens - 1 then (.out applied.ret, fc)
        else
          let rulePtr := rulePtr.drop (ruleTokenPos + regexpSplitTokenLen)
          if rulePtr = [] then (.out applied.ret, fc)
          else
            let resultPtr := resultPtr.drop (resultTokenPos + regexpSplitTokenLen)
            if resultPtr = [] then (.out applied.ret, fc)
            else chunkLoop E keepEmpty fuel (n + 1) rulePtr resultPtr fc

/-- The slots for the pair behind the last token of the rule. -/
def tailArgs (n : Nat) (rulePtr resultPtr : Bytes) (fc : FcInfo Varlena) : FcInfo Varlena :=
  let resultTokenPos := searchSplitToken resultPtr
  let fc :=
    match resultTokenPos with
    | none => fc
    | some pos => fc.replaceResult (resultPtr.take pos)
  -- behind the first round the slots have the chunks of the round before
  if n ≠ 0 then
    let fc := fc.replaceRule rulePtr
    if resultTokenPos = none then fc.replaceResult resultPtr else fc
  else fc

/-- The lines behind the loop, up to `out`. -/
def finishChunks (E : RegexEngine) (final keepEmpty : Bool) :
    ChunksEnd × FcInfo Varlena → Option Bytes × FcInfo Varlena
  | (.out ret, fc) => (ret, fc)
  | (.tail n rulePtr resultPtr, fc) =>
    let fc := tailArgs n rulePtr resultPtr fc
    ((applyTextregexreplaceNoopt E fc final keepEmpty).ret, fc)

/-- The loop and what follows it. -/
def processChunks (E : RegexEngine) (keepEmpty : Bool) (fc : FcInfo Varlena) :
    Option Bytes × FcInfo Varlena :=
  finishChunks E true keepEmpty
    (chunkLoop E keepEmpty regexpSplitMaxTokens 0 fc.ruleText fc.resultText fc)

/-- `regexp_replace_rand_noopt`: what it returns (`none` is `NULL`), and the slots it leaves. -/
def regexpReplaceRandNoopt (E : RegexEngine) (rand : Nat → Nat) (fc : FcInfo Varlena) :
    Option Bytes × FcInfo Varlena :=
  match fc.argIn, fc.argRule, fc.argResult with
  | none, _, _ => (none, fc)
  | some _, none, _ => (some (getInCopy fc), fc)
  | some _, some _, none => (some (getInCopy fc), fc)
  | some _, some rule, some result =>
    if rule.dataAny.length = 0 then (some (getInCopy fc), fc)
    else
      let (saved, fc) := prepareArgs rand rule result fc
      let (ret, fc) := processChunks E fc.keepsEmpty fc
      let fc := restoreArgs saved fc
      (some (ret.getD (getInCopy fc)), fc)

end YetiPgExt.Regexp
