import YetiPgExt.Regexp.Noopt

/-!
# `regexp_replace_rand_array_noopt`

The form for arrays: the loop over the chunks is written a second time, inside a loop over the
elements. The slots of the rule and the result are prepared and restored once; what one element
leaves in them is there for the next one.
-/

set_option autoImplicit false

namespace YetiPgExt.Regexp

open YetiPgExt.Library YetiPgExt.Postgres

/-- The loop over the chunks for one element. It ends with `out` when the element is inserted, and
with `tail` when it is left to the lines behind the loop. -/
def elementLoop (E : RegexEngine) (keepEmpty : Bool) :
    Nat → Nat → Bytes → Bytes → FcInfo Varlena → ChunksEnd × FcInfo Varlena
  | 0, n, rulePtr, resultPtr, fc => (.tail n rulePtr resultPtr, fc)
  | fuel + 1, n, rulePtr, resultPtr, fc =>
    match searchSplitToken rulePtr with
    | none => (.tail n rulePtr resultPtr, fc)
    | some ruleTokenPos =>
      let fc := fc.replaceRule (rulePtr.take ruleTokenPos)
      match searchSplitToken resultPtr with
      | none =>
        let fc := if n > 0 then fc.replaceResult resultPtr else fc
        (.out (applyTextregexreplaceNoopt E fc false keepEmpty).ret, fc)
      | some resultTokenPos =>
        let fc := fc.replaceResult (resultPtr.take resultTokenPos)
        let applied := applyTextregexreplaceNoopt E fc false keepEmpty
        if applied.matched then (.out applied.ret, fc)
        -- the loop is left by `break`, so the lines behind it are reached
        else if n + 1 ≥ regexpSplitMaxTokens - 1 then (.tail (n + 1) rulePtr resultPtr, fc)
        else
          let rulePtr := rulePtr.drop (ruleTokenPos + regexpSplitTokenLen)
          if rulePtr = [] then (.tail (n + 1) rulePtr resultPtr, fc)
          else
            let resultPtr := resultPtr.drop (resultTokenPos + regexpSplitTokenLen)
            if resultPtr = [] then (.tail (n + 1) rulePtr resultPtr, fc)
            else elementLoop E keepEmpty fuel (n + 1) rulePtr resultPtr fc

/-- One element that is not `NULL`: `ret` after it. -/
def processElement (E : RegexEngine) (keepEmpty : Bool) (ruleBegin resultBegin : Bytes)
    (fc : FcInfo Varlena) : Option Bytes × FcInfo Varlena :=
  finishChunks E false keepEmpty
    (elementLoop E keepEmpty regexpSplitMaxTokens 0 ruleBegin resultBegin fc)

/-- The loop over the elements. -/
def processElements (E : RegexEngine) (keepEmpty : Bool) (ruleBegin resultBegin : Bytes) :
    List (Option Varlena) → FcInfo Varlena → List (Option Bytes) × FcInfo Varlena
  | [], fc => ([], fc)
  -- a `NULL` element is inserted as it is, and leaves the slots alone
  | none :: elements, fc =>
    let (inserted, fc) := processElements E keepEmpty ruleBegin resultBegin elements fc
    (none :: inserted, fc)
  | some v :: elements, fc =>
    let (ret, fc) := processElement E keepEmpty ruleBegin resultBegin { fc with argIn := some v }
    let (inserted, fc) := processElements E keepEmpty ruleBegin resultBegin elements fc
    (some (ret.getD v.text) :: inserted, fc)

/-- `get_in_copy_array` -/
def getInCopyArray (elements : List (Option Varlena)) : List (Option Bytes) :=
  elements.map (Option.map Varlena.text)

/-- `regexp_replace_rand_array_noopt`: what it returns (`none` is `NULL`), and the slots it
leaves. -/
def regexpReplaceRandArrayNoopt (E : RegexEngine) (rand : Nat → Nat)
    (fc : FcInfo (List (Option Varlena))) :
    Option (List (Option Bytes)) × FcInfo (List (Option Varlena)) :=
  match fc.argIn, fc.argRule, fc.argResult with
  | none, _, _ => (none, fc)
  | some elements, none, _ => (some (getInCopyArray elements), fc)
  | some elements, some _, none => (some (getInCopyArray elements), fc)
  | some elements, some rule, some result =>
    if rule.dataAny.length = 0 then (some (getInCopyArray elements), fc)
    else
      let (saved, fc) := prepareArgs rand rule result fc
      let (inserted, slots) := processElements E fc.keepsEmpty fc.ruleText fc.resultText elements
        { fc with argIn := none }
      (some inserted, restoreArgs saved { slots with argIn := some elements })

end YetiPgExt.Regexp
