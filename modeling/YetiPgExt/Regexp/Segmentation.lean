import YetiPgExt.Library.Segments
import YetiPgExt.Library.Substitution
import YetiPgExt.Regexp.Placeholders

/-!
# Templates and their segmentation

`replace_placeholders` against the grammar of a template: literal parts, the names between double
braces, and perhaps an unclosed rest. A template has one segmentation, and the scan renders it.
-/

set_option autoImplicit false

namespace YetiPgExt.Regexp

open YetiPgExt.Library YetiPgExt.Postgres

/-- The separator `{{`. -/
def openBraces : Separator where
  bytes := placeholderStart
  ne_nil := by decide

/-- The separator `}}`. -/
def closeBraces : Separator where
  bytes := placeholderEnd
  ne_nil := by decide

/-- The parts of a template: no literal part has `{{`, none in front of `{{` ends in `{`, no name
has `}}` or ends in `}`, and there is no `}}` behind an unclosed `{{`. -/
structure TemplateParts (S : Segmentation) : Prop where
  literal : ∀ p ∈ S.closed, ¬ placeholderStart <:+: p.1 ∧ ¬ ascii "\x7b" <:+ p.1
  name : ∀ p ∈ S.closed, ¬ placeholderEnd <:+: p.2 ∧ ¬ ascii "\x7d" <:+ p.2
  last : ¬ placeholderStart <:+: S.last
  unclosed : ∀ u, S.unclosed = some u → ¬ ascii "\x7b" <:+ S.last ∧ ¬ placeholderEnd <:+: u

theorem templateParts_iff {S : Segmentation} :
    TemplateParts S ↔ S.Leftmost openBraces closeBraces := by
  have hopen : ∀ {part : Bytes}, Leads openBraces part ↔
      ¬ placeholderStart <:+: part ∧ ¬ ascii "\x7b" <:+ part := leads_pair_iff rfl
  have hclose : ∀ {part : Bytes}, Leads closeBraces part ↔
      ¬ placeholderEnd <:+: part ∧ ¬ ascii "\x7d" <:+ part := leads_pair_iff rfl
  constructor
  · intro h
    constructor
    · intro p hp
      exact hopen.mpr (h.literal p hp)
    · intro p hp
      exact hclose.mpr (h.name p hp)
    · exact h.last
    · intro u hu
      obtain ⟨hend, hfree⟩ := h.unclosed u hu
      exact ⟨hopen.mpr ⟨h.last, hend⟩, hfree⟩
  · intro h
    constructor
    · intro p hp
      exact hopen.mp (h.literal p hp)
    · intro p hp
      exact hclose.mp (h.name p hp)
    · exact h.last
    · intro u hu
      obtain ⟨hlead, hfree⟩ := h.unclosed u hu
      exact ⟨(hopen.mp hlead).2, hfree⟩

/-! ## The value of a name -/

/-- A name with the prefix and a key behind it stands for the value of the key. -/
theorem placeholderValue_of_key {values : Jsonb} {key : Bytes} {v : JsonbValue} (hkey : key ≠ [])
    (hv : values.lookup key = some v) :
    placeholderValue values (varsDot ++ key) = serialize v := by
  have hlen : ¬ ((varsDot ++ key).length ≤ varsDot.length ∨
      (varsDot ++ key).take varsDot.length ≠ varsDot) := by
    rw [List.take_left, List.length_append]
    have hpos := List.length_pos_iff.mpr hkey
    rintro (hle | hne)
    · omega
    · exact hne rfl
  rw [placeholderValue, if_neg hlen, List.drop_left, hv]

/-- Any other name stands for the empty text. -/
theorem placeholderValue_of_no_key {values : Jsonb} {name : Bytes}
    (h : ∀ key, name = varsDot ++ key → key ≠ [] → values.lookup key = none) :
    placeholderValue values name = [] := by
  rw [placeholderValue]
  split
  · rfl
  · rename_i hname
    push Not at hname
    obtain ⟨hlen, hpre⟩ := hname
    have hsplit : name = varsDot ++ name.drop varsDot.length := by
      have happ := List.take_append_drop varsDot.length name
      rw [hpre] at happ
      exact happ.symm
    have hkey : name.drop varsDot.length ≠ [] := by
      intro hnil
      have hle := List.drop_eq_nil_iff.mp hnil
      omega
    rw [h _ hsplit hkey]

/-! ## The scan -/

/-- The variables of the loop. -/
structure ScanState where
  st : ParserState
  rest : Bytes
  out : Bytes
  deriving DecidableEq

/-- The body of the loop. -/
def scanRound (values : Jsonb) (s : ScanState) : ScanState :=
  match s.st with
  | .stNormal =>
    match memmem placeholderStart s.rest with
    | none => { s with rest := [], out := s.out ++ s.rest }
    | some tmp =>
      ⟨.stPlaceholder, s.rest.drop (tmp + placeholderStart.length), s.out ++ s.rest.take tmp⟩
  | .stPlaceholder =>
    match memmem placeholderEnd s.rest with
    | none => { s with rest := [], out := s.out ++ s.rest }
    | some tmp =>
      ⟨.stNormal, s.rest.drop (tmp + placeholderEnd.length),
        s.out ++ placeholderValue values (s.rest.take tmp)⟩

/-- A round moves the pointer. -/
theorem scanRound_shorter (values : Jsonb) {s : ScanState} (h : s.rest ≠ []) :
    (scanRound values s).rest.length < s.rest.length := by
  have hpos := List.length_pos_iff.mpr h
  have hdrop : ∀ n, 0 < n → (s.rest.drop n).length < s.rest.length := by
    intro n hn
    rw [List.length_drop]
    omega
  rw [scanRound]
  split
  · split
    · exact hpos
    · exact hdrop _ (Nat.succ_pos _)
  · split
    · exact hpos
    · exact hdrop _ (Nat.succ_pos _)

theorem scanTemplate_nil (values : Jsonb) (fuel : Nat) (st : ParserState) (out : Bytes) :
    scanTemplate values fuel st [] out = out := by
  cases fuel with
  | zero => rfl
  | succ fuel => rfl

section

variable {values : Jsonb} {fuel tmp : Nat} {rest out : Bytes}

theorem ne_nil_of_memmem {sep : Separator} (h : memmem sep.bytes rest = some tmp) : rest ≠ [] := by
  have hle := memmem_add_length_le h
  have hpos := sep.length_pos
  exact List.ne_nil_of_length_pos (by omega)

/-- The end of the template, outside a placeholder or in one. -/
theorem scanTemplate_tail {st : ParserState} (hopen : st = .stNormal →
      memmem placeholderStart rest = none)
    (hclose : st = .stPlaceholder → memmem placeholderEnd rest = none) :
    scanTemplate values (fuel + 1) st rest out = out ++ rest := by
  by_cases hnil : rest = []
  · rw [hnil, scanTemplate_nil, List.append_nil]
  · cases st with
    | stNormal => rw [scanTemplate, if_neg hnil, hopen rfl]
    | stPlaceholder => rw [scanTemplate, if_neg hnil, hclose rfl]

theorem scanTemplate_open (h : memmem placeholderStart rest = some tmp) :
    scanTemplate values (fuel + 1) .stNormal rest out =
      scanTemplate values fuel .stPlaceholder (rest.drop (tmp + placeholderStart.length))
        (out ++ rest.take tmp) := by
  have hnil : rest ≠ [] := @ne_nil_of_memmem _ _ openBraces h
  rw [scanTemplate, if_neg hnil, h]

theorem scanTemplate_close (h : memmem placeholderEnd rest = some tmp) :
    scanTemplate values (fuel + 1) .stPlaceholder rest out =
      scanTemplate values fuel .stNormal (rest.drop (tmp + placeholderEnd.length))
        (out ++ placeholderValue values (rest.take tmp)) := by
  have hnil : rest ≠ [] := @ne_nil_of_memmem _ _ closeBraces h
  rw [scanTemplate, if_neg hnil, h]

end

/-- A run of the function is a round and the run of what is left. -/
theorem scanTemplate_succ (values : Jsonb) (fuel : Nat) (s : ScanState) :
    scanTemplate values (fuel + 1) s.st s.rest s.out =
      scanTemplate values fuel (scanRound values s).st (scanRound values s).rest
        (scanRound values s).out := by
  obtain ⟨st, rest, out⟩ := s
  cases st with
  | stNormal =>
    rcases h : memmem placeholderStart rest with _ | tmp
    · simp only [scanRound, h]
      rw [scanTemplate_nil, scanTemplate_tail (fun _ => h) (fun hst => by cases hst)]
    · simp only [scanRound, h]
      exact scanTemplate_open h
  | stPlaceholder =>
    rcases h : memmem placeholderEnd rest with _ | tmp
    · simp only [scanRound, h]
      rw [scanTemplate_nil, scanTemplate_tail (fun hst => by cases hst) (fun _ => h)]
    · simp only [scanRound, h]
      exact scanTemplate_close h

/-- The loop ends, after no more rounds than there are bytes. -/
theorem scan_ends (values : Jsonb) (s : ScanState) :
    ∃ n ≤ s.rest.length, ((scanRound values)^[n] s).rest = [] ∧
      ∀ fuel, s.rest.length ≤ fuel →
        scanTemplate values fuel s.st s.rest s.out = ((scanRound values)^[n] s).out := by
  by_cases h : s.rest = []
  · refine ⟨0, Nat.zero_le _, h, ?_⟩
    intro fuel _
    rw [h, scanTemplate_nil]
    rfl
  · have hshorter := scanRound_shorter values h
    obtain ⟨n, hn, hend, hscan⟩ := scan_ends values (scanRound values s)
    refine ⟨n + 1, by omega, hend, ?_⟩
    intro fuel hfuel
    obtain ⟨fuel, rfl⟩ := Nat.exists_eq_succ_of_ne_zero (show fuel ≠ 0 by omega)
    rw [scanTemplate_succ]
    exact hscan fuel (by omega)
termination_by s.rest.length

/-- The scan renders the segmentation. -/
theorem scanTemplate_eq_render (values : Jsonb) {fuel : Nat} (t : Bytes) (hfuel : t.length < fuel)
    (out : Bytes) :
    scanTemplate values fuel .stNormal t out =
      out ++ (segment openBraces closeBraces t).render (placeholderValue values) := by
  obtain ⟨fuel, rfl⟩ := Nat.exists_eq_succ_of_ne_zero (Nat.ne_of_gt (Nat.zero_lt_of_lt hfuel))
  rcases h : memmem placeholderStart t with _ | i
  · have hseg : segment openBraces closeBraces t = ⟨[], t, none⟩ := segment_of_none h
    rw [hseg, scanTemplate_tail (fun _ => h) (fun hst => by cases hst)]
    simp [Segmentation.render]
  · have hi : i + placeholderStart.length ≤ t.length := memmem_add_length_le h
    have htwo : placeholderStart.length = 2 := rfl
    obtain ⟨fuel, rfl⟩ := Nat.exists_eq_succ_of_ne_zero (show fuel ≠ 0 by omega)
    rw [scanTemplate_open h]
    rcases h' : memmem placeholderEnd (t.drop (i + placeholderStart.length)) with _ | j
    · have hseg : segment openBraces closeBraces t =
          ⟨[], t.take i, some (t.drop (i + placeholderStart.length))⟩ := segment_of_unclosed h h'
      rw [hseg, scanTemplate_tail (fun hst => by cases hst) (fun _ => h')]
      simp [Segmentation.render]
    · have hseg : segment openBraces closeBraces t =
          .cons (t.take i) ((t.drop (i + placeholderStart.length)).take j)
            (segment openBraces closeBraces
              ((t.drop (i + placeholderStart.length)).drop (j + placeholderEnd.length))) :=
        segment_of_closed h h'
      have hshorter : ((t.drop (i + placeholderStart.length)).drop
          (j + placeholderEnd.length)).length < fuel := by
        rw [List.length_drop, List.length_drop]
        omega
      rw [hseg, Segmentation.render_cons, scanTemplate_close h',
        scanTemplate_eq_render values _ hshorter, List.append_assoc, List.append_assoc]
termination_by t.length
decreasing_by
  have htwo : placeholderStart.length = 2 := rfl
  rw [List.length_drop, List.length_drop]
  omega

/-! ## Templates as words -/

/-- The key of the variable that a name stands for. -/
def variableKey (name : Bytes) : Option Bytes :=
  if name.length ≤ varsDot.length ∨ name.take varsDot.length ≠ varsDot then none
  else some (name.drop varsDot.length)

/-- The text for a key. -/
def keyText (values : Jsonb) (key : Bytes) : Bytes := ((values.lookup key).map serialize).getD []

/-- The bytes that are kept and the variables, in order. -/
def segmentWord (S : Segmentation) : List (UInt8 ⊕ Bytes) :=
  S.closed.flatMap (fun p => p.1.map Sum.inl ++ (variableKey p.2).toList.map Sum.inr) ++
    (S.last ++ S.unclosed.getD []).map Sum.inl

def templateWord (t : Bytes) : List (UInt8 ⊕ Bytes) :=
  segmentWord (segment openBraces closeBraces t)

theorem placeholderValue_eq_substitute (values : Jsonb) (name : Bytes) :
    placeholderValue values name =
      substitute (keyText values) ((variableKey name).toList.map Sum.inr) := by
  rw [placeholderValue, variableKey]
  split
  · rfl
  · show _ = keyText values (name.drop varsDot.length) ++ []
    rw [List.append_nil, keyText]
    cases values.lookup (name.drop varsDot.length) with
    | none => rfl
    | some v => rfl

theorem render_eq_substitute (values : Jsonb) (S : Segmentation) :
    S.render (placeholderValue values) = substitute (keyText values) (segmentWord S) := by
  obtain ⟨closed, last, unclosed⟩ := S
  rw [Segmentation.render, segmentWord, substitute_append, substitute_letters]
  congr 1
  induction closed with
  | nil => rfl
  | cons p closed ih =>
    rw [List.flatMap_cons, List.flatMap_cons, substitute_append, substitute_append,
      substitute_letters, ← placeholderValue_eq_substitute, ih]

theorem replacePlaceholders_eq_substitute (tpl : Varlena) (values : Jsonb) :
    replacePlaceholders tpl values = substitute (keyText values) (templateWord tpl.dataAny) := by
  rw [replacePlaceholders, scanTemplate_eq_render values _ (Nat.lt_succ_self _), List.nil_append,
    render_eq_substitute, templateWord]

/-- Two templates give the same for every object exactly if they are the same words. -/
theorem replacePlaceholders_congr_iff (tpl tpl' : Varlena) :
    (∀ values : Jsonb, values.isObject = true →
      replacePlaceholders tpl values = replacePlaceholders tpl' values) ↔
      templateWord tpl.dataAny = templateWord tpl'.dataAny := by
  constructor
  · intro h
    have : Nontrivial UInt8 := ⟨0, 1, by decide⟩
    apply eq_of_substitute_eq
    intro σ
    -- the object in which each key has the text of the substitution
    have hvalues := h ⟨true, fun key => some (.string (σ key))⟩ rfl
    rw [replacePlaceholders_eq_substitute, replacePlaceholders_eq_substitute] at hvalues
    exact hvalues
  · intro h values _
    rw [replacePlaceholders_eq_substitute, replacePlaceholders_eq_substitute, h]

/-- Every template has one segmentation, and the scan ends and renders it: a name `vars.` with a
key of the object stands for the string, the number or the boolean of the key, and any other name
for nothing. -/
theorem replacePlaceholders_segmentation (values : Jsonb) (t : Bytes) :
    (∃! S : Segmentation, S.text openBraces closeBraces = t ∧ TemplateParts S) ∧
    (∀ S : Segmentation, S.text openBraces closeBraces = t → TemplateParts S →
      (∃ n ≤ t.length, ((scanRound values)^[n] ⟨.stNormal, t, []⟩).rest = [] ∧
        ((scanRound values)^[n] ⟨.stNormal, t, []⟩).out = S.render (placeholderValue values)) ∧
      ∀ tpl : Varlena, tpl.dataAny = t →
        replacePlaceholders tpl values = S.render (placeholderValue values)) ∧
    (∀ key, key ≠ [] →
      (∀ val, values.lookup key = some (.string val) →
        placeholderValue values (ascii "vars." ++ key) = val) ∧
      (∀ serializedNum, values.lookup key = some (.numeric serializedNum) →
        placeholderValue values (ascii "vars." ++ key) = serializedNum) ∧
      (values.lookup key = some (.bool true) →
        placeholderValue values (ascii "vars." ++ key) = ascii "true") ∧
      (values.lookup key = some (.bool false) →
        placeholderValue values (ascii "vars." ++ key) = ascii "false") ∧
      (values.lookup key = some .null ∨ values.lookup key = some .container →
        placeholderValue values (ascii "vars." ++ key) = [])) ∧
    (∀ name, (∀ key, name = ascii "vars." ++ key → key ≠ [] → values.lookup key = none) →
      placeholderValue values name = []) := by
  refine ⟨?_, ?_, ?_, ?_⟩
  · obtain ⟨S, hS, hunique⟩ := existsUnique_segmentation openBraces closeBraces t
    refine ⟨S, ⟨hS.1, templateParts_iff.mpr hS.2⟩, ?_⟩
    rintro S' ⟨htext, hparts⟩
    exact hunique S' ⟨htext, templateParts_iff.mp hparts⟩
  · intro S htext hparts
    have hS : segment openBraces closeBraces t = S := by
      rw [← htext]
      exact (templateParts_iff.mp hparts).segment_text
    have hrender := scanTemplate_eq_render values t (Nat.lt_succ_self _) []
    rw [hS, List.nil_append] at hrender
    constructor
    · obtain ⟨n, hn, hend, hscan⟩ := scan_ends values ⟨.stNormal, t, []⟩
      refine ⟨n, hn, hend, ?_⟩
      rw [← hscan (t.length + 1) (Nat.le_succ _)]
      exact hrender
    · rintro tpl rfl
      exact hrender
  · intro key hkey
    refine ⟨?_, ?_, ?_, ?_, ?_⟩
    · intro val hv
      exact placeholderValue_of_key hkey hv
    · intro serializedNum hv
      exact placeholderValue_of_key hkey hv
    · intro hv
      exact placeholderValue_of_key hkey hv
    · intro hv
      exact placeholderValue_of_key hkey hv
    · rintro (hv | hv)
      · exact placeholderValue_of_key hkey hv
      · exact placeholderValue_of_key hkey hv
  · intro name hname
    exact placeholderValue_of_no_key hname

end YetiPgExt.Regexp
