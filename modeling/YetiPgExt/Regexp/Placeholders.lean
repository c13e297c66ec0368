import YetiPgExt.Postgres.Datum

/-!
# `process_templates`

`f_process_templates.c`: every `{{vars.key}}` in a template is replaced by the value of the key, in
one scan from the left. The scan has two states, in a placeholder and outside one.
-/

set_option autoImplicit false

namespace YetiPgExt.Regexp

open YetiPgExt.Library YetiPgExt.Postgres

/-- `placeholder_start` -/
def placeholderStart : Bytes := [123, 123]
/-- `placeholder_end` -/
def placeholderEnd : Bytes := [125, 125]
/-- The text in front of the name of a variable. -/
def varsDot : Bytes := ascii "vars."

/-- `enum parser_state` -/
inductive ParserState where
  | stNormal
  | stPlaceholder
  deriving DecidableEq

/-- What is appended for a value: nothing for `null` and for what is not a scalar. -/
def serialize : JsonbValue → Bytes
  | .null => []
  | .string val => val
  | .numeric serializedNum => serializedNum
  | .bool val => if val then ascii "true" else ascii "false"
  | .container => []

/-- The text for the name `name` between the braces. -/
def placeholderValue (values : Jsonb) (name : Bytes) : Bytes :=
  if name.length ≤ varsDot.length ∨ name.take varsDot.length ≠ varsDot then []
  else
    match values.lookup (name.drop varsDot.length) with
    | none => []
    | some v => serialize v

/-- The scan of the rest `rest` of the template, with `out` written so far. Each round but the
first moves over two bytes or ends. -/
def scanTemplate (values : Jsonb) : Nat → ParserState → Bytes → Bytes → Bytes
  | 0, _, _, out => out
  | fuel + 1, st, rest, out =>
    if rest = [] then out
    else
      match st with
      | .stNormal =>
        match memmem placeholderStart rest with
        | none => out ++ rest
        | some tmp =>
          scanTemplate values fuel .stPlaceholder (rest.drop (tmp + placeholderStart.length))
            (out ++ rest.take tmp)
      | .stPlaceholder =>
        match memmem placeholderEnd rest with
        | none => out ++ rest
        | some tmp =>
          scanTemplate values fuel .stNormal (rest.drop (tmp + placeholderEnd.length))
            (out ++ placeholderValue values (rest.take tmp))

/-- `replace_placeholders`, which reads the template as it is stored. -/
def replacePlaceholders (tpl : Varlena) (values : Jsonb) : Bytes :=
  scanTemplate values (tpl.dataAny.length + 1) .stNormal tpl.dataAny []

/-- The first argument of `process_templates`, by its type in the call. -/
inductive Templates where
  | text (template : Varlena)
  | textArray (templates : List (Option Varlena))
  | other

/-- What `process_templates` returns. -/
inductive Processed where
  | null
  | text (t : Bytes)
  | textArray (ts : List (Option Bytes))
  deriving DecidableEq

/-- What is returned where there are no values to put in: a copy of an array, and `NULL` for a
text. -/
def Templates.withoutValues : Templates → Processed
  | .text _ => .null
  | .textArray templates => .textArray (templates.map (Option.map Varlena.text))
  | .other => .null

/-- `process_templates` -/
def processTemplates (templates : Option Templates) (vars : Option Jsonb) : Processed :=
  match templates, vars with
  | none, _ => .null
  | some .other, _ => .null
  | some templates, none => templates.withoutValues
  | some templates, some values =>
    if values.isObject then
      match templates with
      | .text template => .text (replacePlaceholders template values)
      | .textArray templates =>
        .textArray (templates.map (Option.map fun v => replacePlaceholders v values))
      | .other => .null
    else templates.withoutValues

end YetiPgExt.Regexp
