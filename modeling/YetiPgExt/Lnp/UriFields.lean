import YetiPgExt.Library.Decimal
import YetiPgExt.Library.Segments
import YetiPgExt.Lnp.Uri
import Mathlib.Data.List.TakeWhile

/-!
# The fields of a URI

What `parseAddr` puts into its fields, by the parts of the URI: the protocol in front of the scheme
delimiter (`parseProto_eq`), the host up to the first colon behind it, and the port
(`parseHost_port`, `parseHost_bare`).

On a URI that is put together from a protocol, a host and a port, with every part or without the
protocol or the port, the parts come back (`parseAddr_composed`). The delimiters are found where
they were put, since `://` does not overlap itself and neither a host nor a decimal number has a
colon in it.

Without a port the host is copied twice, the second time without a look at its length. The fields
are written inside their bounds exactly if there is a port or the host fits (`staysInFields_iff`).
-/

set_option autoImplicit false

namespace YetiPgExt.Lnp

open YetiPgExt.Library

/-! ## The parts of a URI -/

/-- The protocol of a URI: the text in front of the scheme delimiter, if it fits. -/
def protoPart (uri : Bytes) : Bytes :=
  match memmem schemeDelim uri with
  | none => []
  | some n => if n ≤ protocolSize then uri.take n else []

/-- The text behind the scheme, if there is one. -/
def afterScheme (uri : Bytes) : Bytes :=
  match memmem schemeDelim uri with
  | none => uri
  | some n => uri.drop (n + schemeDelim.length)

/-- The host of a URI: the text up to the port. -/
def hostPart (uri : Bytes) : Bytes := (afterScheme uri).takeWhile (fun b => decide (b ≠ portDelim))

/-- The text behind the host and its colon. -/
def portText (uri : Bytes) : Bytes := (afterScheme uri).drop ((hostPart uri).length + 1)

/-- The host as it comes out of its field: one that does not fit is dropped. -/
def hostField (uri : Bytes) : Bytes :=
  if (hostPart uri).length ≤ hostSize then hostPart uri else []

/-- A field with a string in it and zeros behind. -/
def field (size : Nat) (s : Bytes) : Bytes := s ++ zeros (size + 1 - s.length)

theorem cString?_field {size : Nat} {s : Bytes} (hzero : 0 ∉ s) (hlen : s.length ≤ size) :
    cString? (field size s) = some s :=
  cString?_zeros hzero (by omega)

section

variable {uri : Bytes}

theorem not_mem_protoPart (h : 0 ∉ uri) : 0 ∉ protoPart uri := by
  intro hmem
  rw [protoPart] at hmem
  split at hmem
  · cases hmem
  · split at hmem
    · exact h (List.mem_of_mem_take hmem)
    · cases hmem

theorem length_protoPart_le (uri : Bytes) : (protoPart uri).length ≤ protocolSize := by
  rw [protoPart]
  split
  · exact Nat.zero_le _
  · split
    · rename_i hle
      exact (List.length_take_le _ _).trans hle
    · exact Nat.zero_le _

theorem not_mem_afterScheme (h : 0 ∉ uri) : 0 ∉ afterScheme uri := by
  intro hmem
  apply h
  rw [afterScheme] at hmem
  split at hmem
  · exact hmem
  · exact List.mem_of_mem_drop hmem

theorem not_mem_hostPart (h : 0 ∉ uri) : 0 ∉ hostPart uri := by
  intro hmem
  exact not_mem_afterScheme h ((List.takeWhile_prefix _).subset hmem)

/-- The first colon behind the scheme separates the host from the port. -/
theorem afterScheme_split (h : portDelim ∈ afterScheme uri) :
    afterScheme uri = hostPart uri ++ portDelim :: portText uri ∧ portDelim ∉ hostPart uri := by
  obtain ⟨host, port, hsplit, hnot⟩ := List.eq_append_cons_of_mem h
  have hbefore : ∀ b ∈ host, decide (b ≠ portDelim) = true := by
    intro b hb
    rw [decide_eq_true_iff]
    rintro rfl
    exact hnot hb
  have hhost : hostPart uri = host := by
    rw [hostPart, hsplit, List.takeWhile_append_of_pos hbefore,
      List.takeWhile_cons_of_neg (by simp), List.append_nil]
  have hport : portText uri = port := by
    rw [portText, hhost, hsplit, ← List.drop_drop, List.drop_left]
    rfl
  rw [hhost, hport]
  exact ⟨hsplit, hnot⟩

/-- Without a colon all of it is the host. -/
theorem hostPart_of_bare (h : portDelim ∉ afterScheme uri) : hostPart uri = afterScheme uri := by
  rw [hostPart, List.takeWhile_eq_self_iff]
  intro b hb
  rw [decide_eq_true_iff]
  rintro rfl
  exact h hb

end

/-! ## What is stored -/

section

variable {uri host addr : Bytes} {out : UriComponents}

/-- A protocol that is found goes into its field if it fits. -/
theorem copyProto_eq {n : Nat} (hle : n ≤ uri.length) :
    (if 0 < n ∧ n ≤ protocolSize then strncpy UriComponents.zero.proto uri n
      else some UriComponents.zero.proto) =
      some (field protocolSize (if n ≤ protocolSize then uri.take n else [])) := by
  by_cases hn : n ≤ protocolSize
  · rw [if_pos hn]
    rcases Nat.eq_zero_or_pos n with rfl | hpos
    · rfl
    · have hfit : n ≤ UriComponents.zero.proto.length := by
        rw [UriComponents.zero, length_zeros]
        omega
      have hlen : (uri.take n).length = n := List.length_take_of_le hle
      rw [if_pos ⟨hpos, hn⟩, strncpy_eq uri hfit, Nat.sub_eq_zero_of_le hle, UriComponents.zero,
        drop_zeros, field, hlen]
      rfl
  · rw [if_neg (fun h => hn h.2), if_neg hn]
    rfl

theorem parseProto_eq (uri : Bytes) :
    parseProto uri .zero =
      some ({ UriComponents.zero with proto := field protocolSize (protoPart uri) },
        afterScheme uri) := by
  rw [parseProto, protoPart, afterScheme]
  rcases hscheme : memmem schemeDelim uri with _ | n
  · rfl
  · have hle : n ≤ uri.length := (memmem_eq_some_iff.mp hscheme).1
    have hcopy := copyProto_eq hle
    by_cases hn : 0 < n ∧ n ≤ protocolSize
    · rw [if_pos hn] at hcopy
      simp only [if_pos hn, hcopy]
      rfl
    · rw [if_neg hn] at hcopy
      simp only [if_neg hn, ← Option.some.inj hcopy]
      rfl

theorem copyHost_eq {n : Nat} (hn : n ≤ hostSize) (hle : n ≤ addr.length) :
    copyHost addr n (zeros (hostSize + 1)) = some (addr.take n ++ zeros (hostSize + 1 - n)) := by
  rw [copyHost]
  split
  · have hfit : n ≤ (zeros (hostSize + 1)).length := by
      rw [length_zeros]
      omega
    have hpad : n - addr.length = 0 := Nat.sub_eq_zero_of_le hle
    rw [strncpy_eq addr hfit, drop_zeros, hpad]
    rfl
  · have hzero : n = 0 := by omega
    rw [hzero]
    rfl

/-- With a port the host is copied if it fits, and the port is read behind the colon. -/
theorem parseHost_port (hcolon : portDelim ∉ host) (hout : out.host = zeros (hostSize + 1))
    (port : Bytes) :
    parseHost (host ++ portDelim :: port) out =
      some { out with
        host := field hostSize (if host.length ≤ hostSize then host else [])
        port := atoi port } := by
  have hdrop : (host ++ portDelim :: port).drop (host.length + 1) = port := by
    rw [← List.drop_drop, List.drop_left]
    rfl
  have hcopy : copyHost (host ++ portDelim :: port) host.length (zeros (hostSize + 1)) =
      some (field hostSize (if host.length ≤ hostSize then host else [])) := by
    split
    · rename_i hlen
      have hle : host.length ≤ (host ++ portDelim :: port).length := by
        rw [List.length_append]
        exact Nat.le_add_right _ _
      rw [copyHost_eq hlen hle, List.take_left]
      rfl
    · rename_i hlong
      rw [copyHost, if_neg (fun h => hlong h.2)]
      rfl
  rw [parseHost, memchr_append hcolon]
  simp only [hout, hcopy, hdrop, Option.bind_eq_bind, Option.bind_some]
  rfl

/-- The first copy leaves zeros behind the host, if it copies anything. -/
theorem copyHost_whole (host : Bytes) :
    ∃ buf, copyHost host host.length (zeros (hostSize + 1)) = some buf ∧
      buf.length = hostSize + 1 ∧ buf.drop host.length = zeros (hostSize + 1 - host.length) := by
  by_cases hlen : host.length ≤ hostSize
  · refine ⟨_, copyHost_eq hlen (Nat.le_refl _), ?_, ?_⟩
    · rw [List.take_length, List.length_append, length_zeros]
      omega
    · rw [List.take_length, List.drop_left]
  · refine ⟨zeros (hostSize + 1), if_neg (fun h => hlen h.2), length_zeros _, drop_zeros _ _⟩

/-- Without a port the host is copied twice; the second copy has to fit the field. -/
theorem parseHost_bare (hcolon : portDelim ∉ host) (hout : out.host = zeros (hostSize + 1)) :
    parseHost host out =
      if host.length ≤ hostSize + 1 then some { out with host := field hostSize host }
      else none := by
  obtain ⟨buf, hcopy, hlen, hdrop⟩ := copyHost_whole host
  have hsource : host.take host.length ++ zeros (host.length - host.length) = host := by
    rw [List.take_length, Nat.sub_self]
    exact List.append_nil _
  rw [parseHost, memchr_eq_none_iff.mpr hcolon]
  simp only [hout, hcopy, Option.bind_eq_bind, Option.bind_some]
  rw [strncpy, hsource]
  by_cases hfit : host.length ≤ hostSize + 1
  · rw [if_pos hfit, memcpy_eq (by rwa [hlen]), hdrop]
    rfl
  · rw [if_neg hfit, memcpy, if_neg (by rwa [hlen])]
    rfl

/-- An address in range is parsed in its two parts. -/
theorem parseAddr_eq_parts (hne : addr ≠ []) (hlen : addr.length < sockaddrSize)
    (out : UriComponents) :
    parseAddr addr out =
      (parseHost (afterScheme addr)
        { UriComponents.zero with proto := field protocolSize (protoPart addr) }).map
          fun comps => (0, comps) := by
  have hpos : addr.length ≠ 0 := fun h => hne (List.eq_nil_of_length_eq_zero h)
  have hrange : ¬ (addr.length = 0 ∨ addr.length ≥ sockaddrSize) := by omega
  rw [parseAddr, if_neg hrange, parseProto_eq]
  simp only [Option.bind_eq_bind, Option.bind_some]
  cases parseHost (afterScheme addr)
      { UriComponents.zero with proto := field protocolSize (protoPart addr) } with
  | none => rfl
  | some comps => rfl

/-- A URI with a port is parsed. -/
theorem parseAddr_port (h : 0 ∉ uri) (hlen : uri.length < sockaddrSize)
    (hcolon : portDelim ∈ afterScheme uri) (out : UriComponents) :
    ∃ comps, parseAddr uri out = some (0, comps) ∧ cString? comps.host = some (hostField uri) ∧
      comps.port = atoi (portText uri) := by
  obtain ⟨hsplit, hnot⟩ := afterScheme_split hcolon
  have hne : uri ≠ [] := by
    rintro rfl
    cases hcolon
  have hparse := parseAddr_eq_parts hne hlen out
  rw [hsplit, parseHost_port hnot rfl, Option.map_some] at hparse
  refine ⟨_, hparse, ?_, rfl⟩
  change cString? (field hostSize (hostField uri)) = some (hostField uri)
  have hzero : 0 ∉ hostPart uri := not_mem_hostPart h
  rw [hostField]
  split
  · rename_i hle
    exact cString?_field hzero hle
  · exact cString?_field List.not_mem_nil (Nat.zero_le _)

/-- `parseAddr` of a URI that is not empty, with a host that fits. -/
theorem parseAddr_eq (hne : uri ≠ []) (hlen : uri.length < sockaddrSize) (hzero : 0 ∉ uri)
    (hhost : (hostPart uri).length ≤ hostSize) (out : UriComponents) :
    ∃ comps, parseAddr uri out = some (0, comps) ∧ cString? comps.host = some (hostPart uri) := by
  by_cases hcolon : portDelim ∈ afterScheme uri
  · obtain ⟨comps, hparse, hread, -⟩ := parseAddr_port hzero hlen hcolon out
    rw [hostField, if_pos hhost] at hread
    exact ⟨comps, hparse, hread⟩
  · have hbare := hostPart_of_bare hcolon
    have hread : cString? (field hostSize (hostPart uri)) = some (hostPart uri) :=
      cString?_field (not_mem_hostPart hzero) hhost
    have hparse := parseAddr_eq_parts hne hlen out
    rw [← hbare] at hparse hcolon
    rw [parseHost_bare hcolon rfl, if_pos (by omega), Option.map_some] at hparse
    exact ⟨_, hparse, hread⟩

end

/-! ## Putting a URI together -/

/-- A URI from its parts, with the port in decimal. -/
def compose (proto : Option Bytes) (host : Bytes) (port : Option Nat) : Bytes :=
  (proto.map fun p => p ++ schemeDelim).getD [] ++
    (host ++ (port.map fun n => portDelim :: printNat n).getD [])

/-- The components have these parts: the strings in their fields, and the port. -/
structure HasParts (comps : UriComponents) (proto host : Bytes) (port : Int) : Prop where
  proto : cString? comps.proto = some proto
  host : cString? comps.host = some host
  port : comps.port = port

section

variable {proto : Option Bytes} {host : Bytes} {port : Option Nat}

theorem portDelim_not_mem_printNat (n : Nat) : portDelim ∉ printNat n := by
  intro hmem
  exact absurd (isDigit_of_mem_printNat n _ hmem) (by decide)

theorem slash_not_head_printNat (n : Nat) : ∀ b ∈ (printNat n).head?, b ≠ 47 := by
  rintro b hb rfl
  exact absurd (isDigit_of_mem_printNat n _ (List.mem_of_mem_head? hb)) (by decide)

/-- `"://"` as a separator. -/
def schemeSeparator : Separator := ⟨schemeDelim, List.cons_ne_nil _ _⟩

theorem unbordered_scheme : Unbordered schemeSeparator := by
  unfold Unbordered
  decide

/-- A protocol without the scheme delimiter ends where the delimiter is put behind it. -/
theorem parts_of_scheme {p : Bytes} (hscheme : ¬ schemeDelim <:+: p)
    (hlen : p.length ≤ protocolSize) (rest : Bytes) :
    protoPart (p ++ (schemeDelim ++ rest)) = p ∧
      afterScheme (p ++ (schemeDelim ++ rest)) = rest := by
  have hfound : memmem schemeDelim (p ++ (schemeDelim ++ rest)) = some p.length :=
    ((leads_iff_of_unbordered unbordered_scheme).mpr hscheme).memmem_append rest
  constructor
  · rw [protoPart, hfound]
    dsimp only
    rw [if_pos hlen, List.take_left]
  · rw [afterScheme, hfound]
    dsimp only
    rw [← List.drop_drop, List.drop_left, List.drop_left]

/-- Before a colon that no `/` follows there is no scheme delimiter. -/
theorem memmem_scheme_none {rest : Bytes} (hhost : portDelim ∉ host) (hrest : portDelim ∉ rest)
    (hslash : ∀ b ∈ rest.head?, b ≠ 47) :
    memmem schemeDelim (host ++ portDelim :: rest) = none := by
  rw [memmem_eq_none_iff]
  rintro ⟨pre, post, hs⟩
  have hsplit : host ++ portDelim :: rest = pre ++ portDelim :: (47 :: 47 :: post) := by
    rw [← hs, List.append_assoc]
    rfl
  obtain ⟨-, -, hrest'⟩ := (List.append_cons_inj_of_notMem hhost hrest).mp hsplit
  rw [hrest'] at hslash
  exact hslash 47 rfl rfl

theorem memmem_scheme_of_noColon (h : portDelim ∉ host) : memmem schemeDelim host = none := by
  rw [memmem_eq_none_iff]
  intro hin
  exact h (hin.subset List.mem_cons_self)

/-- The protocol is found, or its absence, and what is left is the host with its port. -/
theorem parts_compose (hproto : ∀ p ∈ proto, p.length ≤ protocolSize ∧ ¬ schemeDelim <:+: p)
    (hcolon : portDelim ∉ host) :
    protoPart (compose proto host port) = proto.getD [] ∧
      afterScheme (compose proto host port) =
        host ++ (port.map fun n => portDelim :: printNat n).getD [] := by
  cases proto with
  | some p =>
    obtain ⟨hlen, hscheme⟩ := hproto p rfl
    have hsplit : compose (some p) host port =
        p ++ (schemeDelim ++ (host ++ (port.map fun n => portDelim :: printNat n).getD [])) :=
      List.append_assoc _ _ _
    rw [hsplit]
    exact parts_of_scheme hscheme hlen _
  | none =>
    have hnone : memmem schemeDelim (compose none host port) = none := by
      cases port with
      | some n =>
        exact memmem_scheme_none hcolon (portDelim_not_mem_printNat n) (slash_not_head_printNat n)
      | none =>
        apply memmem_scheme_of_noColon
        simpa [compose] using hcolon
    rw [protoPart, afterScheme, hnone]
    exact ⟨rfl, rfl⟩

/-- The host and the port are read, or zero where the port is left out. -/
theorem parseHost_compose (hcolon : portDelim ∉ host) (hlen : host.length ≤ hostSize)
    (hport : ∀ n ∈ port, n ≤ 65535) {out : UriComponents} (hout : out.host = zeros (hostSize + 1))
    (hzero : out.port = 0) :
    parseHost (host ++ (port.map fun n => portDelim :: printNat n).getD []) out =
      some { out with host := field hostSize host, port := (port.getD 0 : Nat) } := by
  cases port with
  | some n =>
    have hn : n ≤ 65535 := hport n rfl
    have hread : parseHost (host ++ portDelim :: printNat n) out = _ :=
      parseHost_port hcolon hout (printNat n)
    rw [if_pos hlen, atoi_printNat (by omega)] at hread
    exact hread
  | none =>
    have hread : parseHost host out = _ := parseHost_bare hcolon hout
    rw [if_pos (by omega)] at hread
    have hempty : host ++ (Option.map (fun n => portDelim :: printNat n) none).getD [] = host :=
      List.append_nil host
    rw [hempty, hread, Option.getD_none, Nat.cast_zero, ← hzero]

/-- The parts of a composed string have no zero in them if it has none. -/
theorem not_mem_of_compose (h : 0 ∉ compose proto host port) :
    0 ∉ proto.getD [] ∧ 0 ∉ host := by
  constructor
  · intro hmem
    apply h
    cases proto with
    | none => cases hmem
    | some p => exact List.mem_append_left _ (List.mem_append_left _ hmem)
  · intro hmem
    exact h (List.mem_append_right _ (List.mem_append_left _ hmem))

end

/-- `parseAddr` undoes the composition of a URI, with or without a protocol and a port. -/
theorem parseAddr_composed {proto : Option Bytes} {host : Bytes} {port : Option Nat}
    (hproto : ∀ p ∈ proto, p ≠ [] ∧ p.length ≤ protocolSize ∧ ¬ schemeDelim <:+: p)
    (hne : host ≠ []) (hhost : host.length ≤ hostSize) (hcolon : portDelim ∉ host)
    (hport : ∀ n ∈ port, n ≤ 65535) (hzero : 0 ∉ compose proto host port)
    (hlen : (compose proto host port).length < sockaddrSize) (out : UriComponents) :
    ∃ comps, parseAddr (compose proto host port) out = some (0, comps) ∧
      HasParts comps (proto.getD []) host (port.getD 0 : Nat) := by
  obtain ⟨hzeroProto, hzeroHost⟩ := not_mem_of_compose hzero
  have hfit : (proto.getD []).length ≤ protocolSize := by
    cases proto with
    | none => exact Nat.zero_le _
    | some p => exact (hproto p rfl).2.1
  have hnonempty : compose proto host port ≠ [] := by
    intro h
    exact hne (List.append_eq_nil_iff.mp (List.append_eq_nil_iff.mp h).2).1
  have hread := @parseHost_compose host port hcolon hhost hport
    { UriComponents.zero with proto := field protocolSize (proto.getD []) } rfl rfl
  obtain ⟨hpart, hafter⟩ := @parts_compose proto host port (fun p hp => (hproto p hp).2) hcolon
  have hparse := parseAddr_eq_parts hnonempty hlen out
  rw [hpart, hafter, hread, Option.map_some] at hparse
  exact ⟨_, hparse, cString?_field hzeroProto hfit, cString?_field hzeroHost hhost, rfl⟩

/-- `udp://10.0.0.1:5060` and its parts. -/
theorem parseAddr_composed_udp :
    ∃ comps, parseAddr (compose (some (ascii "udp")) (ascii "10.0.0.1") (some 5060)) .zero =
        some (0, comps) ∧
      HasParts comps ((some (ascii "udp")).getD []) (ascii "10.0.0.1")
        ((some 5060).getD 0 : Nat) := by
  refine parseAddr_composed ?_ (by decide) (by decide) (by decide) ?_ (by decide) (by decide) .zero
  · rintro p hp
    cases hp
    decide
  · rintro n hn
    cases hn
    decide

/-! ## Out of bounds -/

/-- The field has a string that fits, and zeros behind it. -/
def HoldsString (size : Nat) (buf : Bytes) : Prop :=
  ∃ s, 0 ∉ s ∧ s.length ≤ size ∧ buf = field size s

/-- No store of `parseAddr` is out of bounds: an address that is refused leaves the components
alone; otherwise both strings fit their fields with a terminator, and without a port the port is
zero. -/
def StaysInFields (addr : Bytes) (out : UriComponents) : Prop :=
  ∃ ret comps, parseAddr addr out = some (ret, comps) ∧
    ((ret = -1 ∧ comps = out) ∨
      (ret = 0 ∧ HoldsString protocolSize comps.proto ∧ HoldsString hostSize comps.host ∧
        (portDelim ∉ afterScheme addr → comps.port = 0)))

section

variable {addr : Bytes}

theorem holdsString_proto (h : 0 ∉ addr) :
    HoldsString protocolSize (field protocolSize (protoPart addr)) :=
  ⟨protoPart addr, not_mem_protoPart h, length_protoPart_le addr, rfl⟩

/-- A string as long as its field and one more has no terminator. -/
theorem not_holdsString {size : Nat} {s : Bytes} (hzero : 0 ∉ s) (hlen : s.length = size + 1) :
    ¬ HoldsString size (field size s) := by
  rintro ⟨t, -, ht, heq⟩
  have hfull : field size s = s := by
    rw [field, hlen, Nat.sub_self]
    exact List.append_nil s
  rw [hfull] at heq
  apply hzero
  rw [heq, field]
  refine List.mem_append_right _ (List.mem_replicate.mpr ⟨?_, rfl⟩)
  omega

/-- The host field holds a host that fits, or stays empty. -/
theorem holdsString_host {host : Bytes} (h : 0 ∉ host) :
    HoldsString hostSize (field hostSize (if host.length ≤ hostSize then host else [])) := by
  split
  · rename_i hle
    exact ⟨host, h, hle, rfl⟩
  · exact ⟨[], List.not_mem_nil, Nat.zero_le _, rfl⟩

theorem staysInFields_of_refused (h : addr = [] ∨ sockaddrSize ≤ addr.length)
    (out : UriComponents) : StaysInFields addr out := by
  have hrange : addr.length = 0 ∨ addr.length ≥ sockaddrSize := by
    rcases h with rfl | h
    · exact .inl rfl
    · exact .inr h
  refine ⟨-1, out, ?_, .inl ⟨rfl, rfl⟩⟩
  rw [parseAddr, if_pos hrange]

/-- With a port every copy has its guard. -/
theorem staysInFields_of_port (h : 0 ∉ addr) (hne : addr ≠ []) (hlen : addr.length < sockaddrSize)
    (hcolon : portDelim ∈ afterScheme addr) (out : UriComponents) : StaysInFields addr out := by
  obtain ⟨hsplit, hnot⟩ := afterScheme_split hcolon
  have hparse := parseAddr_eq_parts hne hlen out
  rw [hsplit, parseHost_port hnot rfl, Option.map_some] at hparse
  exact ⟨_, _, hparse, .inr ⟨rfl, holdsString_proto h, holdsString_host (not_mem_hostPart h),
    fun hno => absurd hcolon hno⟩⟩

/-- Without a port the second copy of the host has none: the host has to fit. -/
theorem staysInFields_bare_iff (h : 0 ∉ addr) (hne : addr ≠ [])
    (hlen : addr.length < sockaddrSize) (hcolon : portDelim ∉ afterScheme addr)
    (out : UriComponents) :
    StaysInFields addr out ↔ (afterScheme addr).length ≤ hostSize := by
  have hparse := parseAddr_eq_parts hne hlen out
  rw [parseHost_bare hcolon rfl] at hparse
  have hzero : 0 ∉ afterScheme addr := not_mem_afterScheme h
  constructor
  · rintro ⟨ret, comps, hret, hfields⟩
    rw [hparse] at hret
    split at hret
    · rename_i hle
      obtain ⟨rfl, rfl⟩ := Prod.mk.inj (Option.some.inj hret)
      rcases hfields with ⟨habs, -⟩ | ⟨-, -, hholds, -⟩
      · cases habs
      · -- a host with one byte too many fits the field, but leaves no room for the terminator
        by_contra hlong
        exact not_holdsString hzero (by omega) hholds
    · cases hret
  · intro hle
    rw [if_pos (by omega), Option.map_some] at hparse
    exact ⟨_, _, hparse, .inr ⟨rfl, holdsString_proto h, ⟨_, hzero, hle, rfl⟩, fun _ => rfl⟩⟩

/-- Every store of `parseAddr` stays inside its field exactly if the address is refused, or has a
port, or has a host that fits. -/
theorem staysInFields_iff (h : 0 ∉ addr) (out : UriComponents) :
    StaysInFields addr out ↔
      addr = [] ∨ sockaddrSize ≤ addr.length ∨ portDelim ∈ afterScheme addr ∨
        (afterScheme addr).length ≤ hostSize := by
  by_cases hne : addr = []
  · exact iff_of_true (staysInFields_of_refused (.inl hne) out) (.inl hne)
  · rcases Nat.lt_or_ge addr.length sockaddrSize with hlen | hlong
    · by_cases hcolon : portDelim ∈ afterScheme addr
      · exact iff_of_true (staysInFields_of_port h hne hlen hcolon out) (.inr (.inr (.inl hcolon)))
      · rw [staysInFields_bare_iff h hne hlen hcolon]
        constructor
        · intro hle
          exact .inr (.inr (.inr hle))
        · rintro (hnil | hge | hmem | hle)
          · exact absurd hnil hne
          · exact absurd hge (Nat.not_le_of_lt hlen)
          · exact absurd hmem hcolon
          · exact hle
    · exact iff_of_true (staysInFields_of_refused (.inr hlong) out) (.inr (.inl hlong))

/-- `10.0.0.1` without a port. -/
theorem staysInFields_iff_bare :
    StaysInFields (ascii "10.0.0.1") .zero ↔
      ascii "10.0.0.1" = [] ∨ sockaddrSize ≤ (ascii "10.0.0.1").length ∨
        portDelim ∈ afterScheme (ascii "10.0.0.1") ∨
        (afterScheme (ascii "10.0.0.1")).length ≤ hostSize :=
  staysInFields_iff (by decide) .zero

/-- A host of 66 bytes without a port is written past the end of its field. -/
theorem not_staysInFields :
    ¬ ∀ (addr : Bytes) (out : UriComponents), 0 ∉ addr → StaysInFields addr out := by
  intro h
  have hzero : (0 : UInt8) ∉ List.replicate 66 (97 : UInt8) := by
    rw [List.mem_replicate]
    rintro ⟨-, heq⟩
    cases heq
  have hnone : parseAddr (List.replicate 66 97) .zero = none := by decide
  obtain ⟨ret, comps, hret, -⟩ := h _ .zero hzero
  rw [hnone] at hret
  cases hret

end

end YetiPgExt.Lnp
