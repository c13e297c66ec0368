import YetiPgExt.Library.Bytes

/-!
# What the code sees of PostgreSQL

Text values in their storage forms, jsonb values, and the regular expression engine. The forms
differ in what the macros that read a value without detoasting it find behind its header. The
engine and the lookup in a jsonb object are arbitrary.
-/

set_option autoImplicit false

namespace YetiPgExt.Postgres

open YetiPgExt.Library

/-! ## Texts -/

/-- A value that is stored compressed or out of line: the bytes behind its header, and the text
that detoasting gives. An empty text is never stored so. -/
structure Toasted where
  raw : Bytes
  text : Bytes
  raw_ne_nil : raw ≠ []
  text_ne_nil : text ≠ []
  deriving DecidableEq

/-- A `text` value: with a header of four bytes or of one, compressed, or a pointer to a value out
of line. -/
inductive Varlena where
  | plain (text : Bytes)
  | short (text : Bytes)
  | compressed (t : Toasted)
  | external (t : Toasted)
  deriving DecidableEq

/-- The text of `PG_GETARG_TEXT_P`, which detoasts. -/
def Varlena.text : Varlena → Bytes
  | .plain text => text
  | .short text => text
  | .compressed t => t.text
  | .external t => t.text

/-- The `VARSIZE_ANY_EXHDR` bytes at `VARDATA_ANY` of a value as it is stored. -/
def Varlena.dataAny : Varlena → Bytes
  | .plain text => text
  | .short text => text
  | .compressed t => t.raw
  | .external t => t.raw

/-- Whether a value is empty does not depend on how it is stored. -/
theorem Varlena.dataAny_eq_nil_iff (v : Varlena) : v.dataAny = [] ↔ v.text = [] := by
  cases v with
  | plain text => exact Iff.rfl
  | short text => exact Iff.rfl
  | compressed t => exact iff_of_false t.raw_ne_nil t.text_ne_nil
  | external t => exact iff_of_false t.raw_ne_nil t.text_ne_nil

/-- The bytes of a `text` value. The server keeps zero bytes out of them. -/
structure Text where
  bytes : Bytes
  no_zero : 0 ∉ bytes
  deriving DecidableEq

theorem Text.eq_iff {s t : Text} : s = t ↔ s.bytes = t.bytes := by
  cases s
  cases t
  exact Text.mk.injEq .. ▸ Iff.rfl

/-! ## Jsonb -/

/-- The value of a key: a number carries the text that `numeric_out` gives. -/
inductive JsonbValue where
  | null
  | string (val : Bytes)
  | numeric (serializedNum : Bytes)
  | bool (val : Bool)
  | container
  deriving DecidableEq

/-- A `jsonb` value: `JsonContainerIsObject` and `getKeyJsonValueFromContainer`. -/
structure Jsonb where
  isObject : Bool
  lookup : Bytes → Option JsonbValue

/-! ## Regular expressions -/

/-- The engine, for one collation. A call of `textregexreplace_noopt` that raises an error has no
result. -/
structure RegexEngine where
  /-- `pg_regcomp` returns `REG_OKAY`. -/
  regcomp : (pattern : Bytes) → Bool
  /-- `pg_regexec` returns `REG_OKAY`. -/
  regexec : (pattern data : Bytes) → Bool
  textregexreplaceNoopt : (data pattern replacement : Bytes) → Option Bytes

/-- The empty pattern matches every text. -/
structure RegexEngine.EmptyMatches (E : RegexEngine) : Prop where
  regcomp_nil : E.regcomp [] = true
  regexec_nil : ∀ data, E.regexec [] data = true

/-- `textregexreplace_noopt` raises an error on a text, with a pattern that compiles and
matches it. -/
def RegexEngine.RaisesOn (E : RegexEngine) (data : Bytes) : Prop :=
  ∃ pattern replacement, E.regcomp pattern = true ∧ E.regexec pattern data = true ∧
    E.textregexreplaceNoopt data pattern replacement = none

end YetiPgExt.Postgres
