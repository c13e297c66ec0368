import YetiPgExt.Library.LiveStores
import YetiPgExt.Library.Runs
import YetiPgExt.Lnp.Cache

/-!
# The functions of the cache

All of `endpoints_cache.c`, over a hash table that can be counted and scanned: `EndpointsCache`
also counts, removes and destroys, and a function that changes the table writes all of it to the
log. A scan returns the entries in any order (`HashOrder`).

`cache_session` tells every reply and every log of a session by the live stores, and `cache_defined`
which calls read behind an entry: the ones that store a response of 2048 bytes or more with the
error flag set. The table is the one that the lookups of a backend see as a map
(`hashTab_of_runs`).
-/

set_option autoImplicit false

namespace YetiPgExt.Lnp

open YetiPgExt.Library YetiPgExt.Postgres

/-! ## The table -/

/-- The entries of the hash table. -/
abbrev EcEntries := AList fun _ : Bytes => EndpointCacheEntry

/-- `hash_tab`, which may be `NULL`. -/
abbrev EcTable := Option EcEntries

/-- An element of the hash table: `EndpointCacheEntry` with its key. -/
abbrev EcElement := Σ _ : Bytes, EndpointCacheEntry

/-- The order in which `hash_seq_search` returns the entries of a table. -/
structure HashOrder where
  scan : EcEntries → List EcElement
  perm : ∀ table, (scan table).Perm table.entries

/-- A line that `info` writes. -/
inductive InfoLine where
  | elements (n : Int32)
  | element (key response : Bytes) (error : Bool)
  deriving DecidableEq

/-- What a function hands back: a return value, or an entry with the return value 0. -/
inductive CacheReply where
  | ret (n : Int32)
  | found (entry : EndpointCacheEntry)
  deriving DecidableEq

/-- The byte of a `bool`. -/
def boolByte : Bool → UInt8
  | true => 1
  | false => 0

/-- An element in memory: the fields of the structure, one behind the other. -/
def elementMem (e : EcElement) : Bytes := e.1 ++ (e.2.response ++ [boolByte e.2.error])

/-- The line of an element; no result if `%s` reads behind the structure. -/
def elementLine (e : EcElement) : Option InfoLine := do
  let key ← cString? (elementMem e)
  let response ← cString? ((elementMem e).drop ecKeyMaxLength)
  return .element key response e.2.error

namespace EcTable

/-- `__ec_items_count` -/
def itemsCount (t : EcTable) : Int32 :=
  match t with
  | none => 0
  | some table => Int32.ofNat table.entries.length

/-- `__ec_print_elements`: its return value and the lines. -/
def printElements (order : HashOrder) (t : EcTable) : Option (Int32 × List InfoLine) :=
  match t with
  | none => some (1, [])
  | some table => do
    let lines ← (order.scan table).mapM elementLine
    return (0, .elements (itemsCount t) :: lines)

/-- `__ec_store` -/
def store (order : HashOrder) (t : EcTable) (key response : Text) (error : Bool) :
    Option (Int32 × List InfoLine × EcTable) := do
  -- `__ec_init` makes an empty table
  let table := t.getD ∅
  let keyBuf ← setKeyBuf key
  let response ← strncpy (zeros ecResponseMaxLength) response.bytes
    (min response.bytes.length ecResponseMaxLength)
  let table := table.insert keyBuf ⟨response, error⟩
  let (_, lines) ← printElements order (some table)
  return (0, lines, some table)

/-- `__ec_find` -/
def find (t : EcTable) (key : Text) : Option CacheReply :=
  match t with
  | none => some (.ret (-1))
  | some table => do
    let keyBuf ← setKeyBuf key
    match table.lookup keyBuf with
    | none => return .ret (-1)
    | some entry => return .found entry

/-- `__ec_remove` -/
def remove (order : HashOrder) (t : EcTable) (key : Text) :
    Option (Int32 × List InfoLine × EcTable) :=
  match t with
  | none => some (-1, [], none)
  | some table => do
    let keyBuf ← setKeyBuf key
    if keyBuf ∈ table then
      let (_, lines) ← printElements order (some (table.erase keyBuf))
      return (0, lines, some (table.erase keyBuf))
    else return (-1, [], some table)

/-- The loop of `__ec_remove_all` over the elements of a scan: its return value, and the table. -/
def removeScanned (table : EcEntries) : List EcElement → Int32 × EcEntries
  | [] => (0, table)
  | e :: scan => if e.1 ∈ table then removeScanned (table.erase e.1) scan else (1, table)

/-- `__ec_remove_all` -/
def removeAll (order : HashOrder) (t : EcTable) : Option (Int32 × List InfoLine × EcTable) :=
  match t with
  | none => some (1, [], none)
  | some table => do
    let (ret, table) := removeScanned table (order.scan table)
    if ret ≠ 0 then return (ret, [], some table)
    let (_, lines) ← printElements order (some table)
    return (0, lines, some table)

/-- `__ec_destroy` -/
def destroy (order : HashOrder) (t : EcTable) : Option (Int32 × List InfoLine × EcTable) :=
  match t with
  | none => some (1, [], none)
  | some table => do
    let (_, lines, _) ← removeAll order (some table)
    return (0, lines, none)

/-- What the table is to a lookup. -/
def hashTab (t : EcTable) : HashTab := t.map fun table key => table.lookup key

end EcTable

/-- A call of a function of `EndpointsCache`. -/
inductive CacheCommand where
  | store (c : CacheSet)
  | find (key : Text)
  | itemsCount
  | remove (key : Text)
  | removeAll
  | destroy

/-- The reply of a call, the lines in the log, and the table behind it; no result if the call reads
or writes out of bounds. -/
def EcTable.exec (order : HashOrder) (t : EcTable) :
    CacheCommand → Option (CacheReply × List InfoLine × EcTable)
  | .store c => do
    let (ret, lines, t) ← store order t c.key c.response c.error
    return (.ret ret, lines, t)
  | .find key => do
    let reply ← find t key
    return (reply, [], t)
  | .itemsCount => some (.ret (itemsCount t), [], t)
  | .remove key => do
    let (ret, lines, t) ← remove order t key
    return (.ret ret, lines, t)
  | .removeAll => do
    let (ret, lines, t) ← removeAll order t
    return (.ret ret, lines, t)
  | .destroy => do
    let (ret, lines, t) ← destroy order t
    return (.ret ret, lines, t)

structure CacheCall where
  command : CacheCommand
  reply : CacheReply
  lines : List InfoLine

/-- A call of a session. -/
def CacheStep (t : EcTable) (call : CacheCall) (t' : EcTable) : Prop :=
  ∃ order, EcTable.exec order t call.command = some (call.reply, call.lines, t')

/-! ## The live stores -/

/-- What a session of calls amounts to: whether there is a table, and the stores that are live. -/
structure CacheView where
  created : Bool
  live : List CacheSet

namespace CacheView

def start : CacheView where
  created := false
  live := []

/-- The most recent live store under a key that agrees with the given one. -/
def recent? (v : CacheView) (key : Text) : Option CacheSet :=
  v.live.find? (fun c => decide (keyPrefix c.key = keyPrefix key))

/-- The live stores under other keys. -/
def others (v : CacheView) (key : Text) : List CacheSet :=
  without (fun c => keyPrefix c.key) (keyPrefix key) v.live

def after (v : CacheView) : CacheCommand → CacheView
  | .store c => { created := true, live := v.others c.key ++ [c] }
  | .find _ | .itemsCount => v
  | .remove key => { v with live := v.others key }
  | .removeAll => { v with live := [] }
  | .destroy => start

def reply (v : CacheView) : CacheCommand → CacheReply
  | .store _ => .ret 0
  | .find key =>
    match v.recent? key with
    | none => .ret (-1)
    | some c => .found (entryOf c)
  | .itemsCount => .ret (Int32.ofNat v.live.length)
  | .remove key => .ret (if (v.recent? key).isSome then 0 else -1)
  | .removeAll | .destroy => .ret (if v.created then 0 else 1)

/-- The call changes the table, and so it writes the table to the log. -/
def changes (v : CacheView) : CacheCommand → Bool
  | .store _ => true
  | .find _ | .itemsCount => false
  | .remove key => (v.recent? key).isSome
  | .removeAll | .destroy => v.created

/-- The view behind the calls of a session. -/
def ofCalls (calls : List CacheCall) : CacheView :=
  calls.foldl (fun v call => v.after call.command) start

end CacheView

/-- The line of a store. A key of 256 bytes or more has no terminator in its field, and is printed
with the response behind it. -/
def lineOf (c : CacheSet) : InfoLine :=
  .element
    (if c.key.bytes.length < ecKeyMaxLength then c.key.bytes
      else keyPrefix c.key ++ c.response.bytes.take ecResponseMaxLength)
    (c.response.bytes.take ecResponseMaxLength) c.error

/-- There is a zero in the response field or, for the error flag, right behind it. -/
def CacheSet.Printable (c : CacheSet) : Prop :=
  c.response.bytes.length < ecResponseMaxLength ∨ c.error = false

/-- The log of a call that changes the table: the number of live stores, and a line for each of
them in some order. -/
def Listing (live : List CacheSet) (lines : List InfoLine) : Prop :=
  ∃ rest, lines = .elements (Int32.ofNat live.length) :: rest ∧ rest.Perm (live.map lineOf)

instance (c : CacheSet) : Decidable c.Printable := inferInstanceAs (Decidable (_ ∨ _))

/-! ## The log -/

section Log

variable {c : CacheSet}

theorem head?_zeros {n : Nat} (rest : Bytes) (h : 0 < n) : (zeros n ++ rest).head? = some 0 := by
  obtain ⟨n, rfl⟩ := Nat.exists_eq_succ_of_ne_zero (Nat.ne_of_gt h)
  rfl

/-- What lies behind the key field: the string of the response, if it is terminated. -/
theorem cString?_response {s : Bytes} (hs : 0 ∉ s) (c : CacheSet) :
    cString? (s ++ ((entryOf c).response ++ [boolByte c.error])) =
      if c.Printable then some (s ++ c.response.bytes.take ecResponseMaxLength) else none := by
  have hstring : 0 ∉ s ++ c.response.bytes.take ecResponseMaxLength := by
    rw [List.mem_append, not_or]
    exact ⟨hs, fun hmem => c.response.no_zero (List.mem_of_mem_take hmem)⟩
  rw [entryOf, List.append_assoc, ← List.append_assoc s]
  by_cases hshort : c.response.bytes.length < ecResponseMaxLength
  · have hprintable : c.Printable := .inl hshort
    rw [if_pos hprintable]
    exact cString?_append hstring (head?_zeros _ (Nat.sub_pos_of_lt hshort))
  · rw [Nat.sub_eq_zero_of_le (not_lt.mp hshort)]
    cases herror : c.error with
    | false =>
      have hprintable : c.Printable := .inr herror
      rw [if_pos hprintable]
      exact cString?_append hstring rfl
    | true =>
      have hprintable : ¬c.Printable := by
        rintro (hlen | hflag)
        · exact hshort hlen
        · rw [herror] at hflag
          cases hflag
      -- the field is full, and the flag behind it is not zero
      have hfull : 0 ∉ zeros 0 ++ [boolByte true] := by decide
      rw [if_neg hprintable, cString?, if_neg]
      rw [List.mem_append, not_or]
      exact ⟨hstring, hfull⟩

/-- The line of an element that a store made. -/
theorem elementLine_entryAt (c : CacheSet) :
    elementLine (entryAt (fun c => keyImage c.key) entryOf c) =
      if c.Printable then some (lineOf c) else none := by
  have himage : (keyImage c.key).length = ecKeyMaxLength := by
    rw [keyImage, keyPrefix, List.length_append, List.length_take, length_zeros]
    omega
  have hkey : c.Printable →
      cString? (elementMem (entryAt (fun c => keyImage c.key) entryOf c)) =
        some (if c.key.bytes.length < ecKeyMaxLength then c.key.bytes
          else keyPrefix c.key ++ c.response.bytes.take ecResponseMaxLength) := by
    intro hprintable
    rw [elementMem, entryAt]
    by_cases hshort : c.key.bytes.length < ecKeyMaxLength
    · rw [if_pos hshort, keyImage, keyPrefix, List.take_of_length_le hshort.le, List.append_assoc]
      exact cString?_append c.key.no_zero (head?_zeros _ (Nat.sub_pos_of_lt hshort))
    · rw [if_neg hshort, keyImage, Nat.sub_eq_zero_of_le (not_lt.mp hshort)]
      have hempty : keyPrefix c.key ++ zeros 0 = keyPrefix c.key := List.append_nil _
      rw [hempty]
      exact (cString?_response (not_mem_keyPrefix c.key) c).trans (if_pos hprintable)
  have hresponse : cString?
      ((elementMem (entryAt (fun c => keyImage c.key) entryOf c)).drop ecKeyMaxLength) =
        if c.Printable then some (c.response.bytes.take ecResponseMaxLength) else none := by
    rw [elementMem, entryAt, ← himage, List.drop_left]
    exact cString?_response List.not_mem_nil c
  rw [elementLine, hresponse]
  by_cases hprintable : c.Printable
  · rw [hkey hprintable, if_pos hprintable, if_pos hprintable]
    rfl
  · rw [if_neg hprintable, if_neg hprintable]
    cases cString? (elementMem (entryAt (fun c => keyImage c.key) entryOf c)) <;> rfl

end Log

/-! ## The table and the live stores -/

/-- A table that holds the live stores of a view, all of which can be printed. -/
structure Shows (t : EcTable) (v : CacheView) : Prop where
  created : t.isSome = v.created
  holds : Holds (fun c => keyImage c.key) entryOf (t.getD ∅) v.live
  printable : ∀ c ∈ v.live, c.Printable

/-- Only a store can be undefined. -/
def CacheCommand.Printable : CacheCommand → Prop
  | .store c => c.Printable
  | _ => True

/-- What a call writes to the log. -/
def CacheView.Logs (v : CacheView) (command : CacheCommand) (lines : List InfoLine) : Prop :=
  if v.changes command then Listing (v.after command).live lines else lines = []

/-- What a function has to do to a table that shows `v`. -/
def Performs (v : CacheView) (command : CacheCommand)
    (result : Option (CacheReply × List InfoLine × EcTable)) : Prop :=
  ∃ lines t, result = some (v.reply command, lines, t) ∧ Shows t (v.after command) ∧
    v.Logs command lines

section Table

variable {order : HashOrder} {t : EcTable} {table : EcEntries} {v : CacheView}
variable {live : List CacheSet}

theorem others_image (v : CacheView) (key : Text) :
    without (fun c => keyImage c.key) (keyImage key) v.live = v.others key := by
  unfold CacheView.others without
  congr 1
  funext c
  rw [decide_eq_decide, ne_eq, ne_eq, keyImage_inj]

theorem recent_image (v : CacheView) (key : Text) :
    v.live.find? (fun c => decide (keyImage c.key = keyImage key)) = v.recent? key := by
  unfold CacheView.recent?
  congr 1
  funext c
  rw [decide_eq_decide, keyImage_inj]

/-- The table is written to the log if every live store can be printed. -/
theorem printElements_of_holds (order : HashOrder)
    (hholds : Holds (fun c => keyImage c.key) entryOf table live)
    (hprintable : ∀ c ∈ live, c.Printable) :
    ∃ lines, EcTable.printElements order (some table) = some (0, lines) ∧ Listing live lines := by
  have hline : ∀ c ∈ live,
      elementLine (entryAt (fun c => keyImage c.key) entryOf c) = some (lineOf c) := by
    intro c hc
    rw [elementLine_entryAt, if_pos (hprintable c hc)]
  obtain ⟨rest, hscan, hrest⟩ := exists_mapM_of_perm ((order.perm table).trans hholds) hline
  refine ⟨.elements (EcTable.itemsCount (some table)) :: rest, ?_, rest, ?_, hrest⟩
  · rw [EcTable.printElements, hscan]
    rfl
  · rw [EcTable.itemsCount, hholds.length]

/-- One live store that cannot be printed is enough. -/
theorem printElements_eq_none (order : HashOrder)
    (hholds : Holds (fun c => keyImage c.key) entryOf table live) {c : CacheSet} (hc : c ∈ live)
    (hprintable : ¬c.Printable) : EcTable.printElements order (some table) = none := by
  have hmem : entryAt (fun c => keyImage c.key) entryOf c ∈ order.scan table :=
    ((order.perm table).trans hholds).mem_iff.mpr (List.mem_map_of_mem hc)
  have hnone := (elementLine_entryAt c).trans (if_neg hprintable)
  rw [EcTable.printElements, mapM_eq_none_of_mem hmem hnone]
  rfl

/-- The loop finds every element that the scan returns, and leaves none. -/
theorem removeScanned_eq {scan : List EcElement} (h : scan.Perm table.entries) :
    EcTable.removeScanned table scan = (0, ∅) := by
  induction scan generalizing table with
  | nil =>
    rw [EcTable.removeScanned, Prod.mk.injEq]
    exact ⟨rfl, AList.ext h.nil_eq.symm⟩
  | cons e scan ih =>
    have hmem : e.1 ∈ table := List.mem_keys_of_mem (h.mem_iff.mp List.mem_cons_self)
    have herase := (List.Perm.kerase (a := e.1) ((List.perm_nodupKeys h).mpr table.nodupKeys) h)
    rw [List.kerase_cons_eq rfl] at herase
    rw [EcTable.removeScanned, if_pos hmem]
    exact ih herase

theorem Shows.start : Shows none .start :=
  ⟨rfl, .empty, fun _ hc => absurd hc List.not_mem_nil⟩

/-- Without a table nothing is live. -/
theorem Shows.live_of_none (h : Shows none v) : v.live = [] := by
  have hlen := h.holds.length
  exact List.eq_nil_of_length_eq_zero hlen.symm

theorem Shows.store (h : Shows t v) (order : HashOrder) (c : CacheSet) :
    (c.Printable → Performs v (.store c) (EcTable.exec order t (.store c))) ∧
      (¬c.Printable → EcTable.exec order t (.store c) = none) := by
  have hholds := h.holds.insert c
  rw [others_image] at hholds
  have hstore : EcTable.store order t c.key c.response c.error =
      (EcTable.printElements order (some ((t.getD ∅).insert (keyImage c.key) (entryOf c)))).map
        fun p => (0, p.2, some ((t.getD ∅).insert (keyImage c.key) (entryOf c))) := by
    rw [EcTable.store, setKeyBuf_eq, strncpy_min, entryOf]
    simp only [Option.bind_eq_bind, Option.bind_some]
    cases EcTable.printElements order _ <;> rfl
  have hothers : ∀ d ∈ v.others c.key, d.Printable := by
    intro d hd
    exact h.printable d (mem_without.mp hd).1
  constructor
  · intro hprintable
    have hall : ∀ d ∈ v.others c.key ++ [c], d.Printable := by
      intro d hd
      rcases List.mem_append.mp hd with hd | hd
      · exact hothers d hd
      · rwa [List.mem_singleton.mp hd]
    obtain ⟨lines, hprint, hlisting⟩ := printElements_of_holds order hholds hall
    rw [EcTable.exec, hstore, hprint]
    exact ⟨lines, _, rfl, ⟨rfl, hholds, hall⟩, hlisting⟩
  · intro hprintable
    have hmem : c ∈ v.others c.key ++ [c] := List.mem_append_right _ List.mem_cons_self
    rw [EcTable.exec, hstore, printElements_eq_none order hholds hmem hprintable]
    rfl

theorem Shows.find (h : Shows t v) (order : HashOrder) (key : Text) :
    Performs v (.find key) (EcTable.exec order t (.find key)) := by
  refine ⟨[], t, ?_, h, rfl⟩
  cases t with
  | none =>
    have hnone : v.recent? key = none := by
      rw [CacheView.recent?, h.live_of_none]
      rfl
    rw [CacheView.reply, hnone]
    rfl
  | some table =>
    have hholds : Holds (fun c => keyImage c.key) entryOf table v.live := h.holds
    have hlookup := hholds.lookup (keyImage key)
    rw [recent_image] at hlookup
    rw [EcTable.exec, EcTable.find, setKeyBuf_eq]
    simp only [Option.bind_eq_bind, Option.bind_some, hlookup, CacheView.reply]
    cases v.recent? key <;> rfl

theorem Shows.itemsCount (h : Shows t v) (order : HashOrder) :
    Performs v .itemsCount (EcTable.exec order t .itemsCount) := by
  refine ⟨[], t, ?_, h, rfl⟩
  rw [EcTable.exec, CacheView.reply]
  cases t with
  | none =>
    rw [h.live_of_none]
    rfl
  | some table =>
    have hlen : table.entries.length = v.live.length := h.holds.length
    rw [EcTable.itemsCount, hlen]

theorem Shows.remove (h : Shows t v) (order : HashOrder) (key : Text) :
    Performs v (.remove key) (EcTable.exec order t (.remove key)) := by
  cases t with
  | none =>
    have hnone : v.recent? key = none := by
      rw [CacheView.recent?, h.live_of_none]
      rfl
    have hothers : v.others key = v.live := by
      rw [CacheView.others, h.live_of_none]
      rfl
    refine ⟨[], none, ?_, ?_, ?_⟩
    · rw [CacheView.reply, hnone]
      rfl
    · rwa [CacheView.after, hothers]
    · rw [CacheView.Logs, CacheView.changes, hnone]
      rfl
  | some table =>
    have hholds : Holds (fun c => keyImage c.key) entryOf table v.live := h.holds
    have hlookup := hholds.lookup (keyImage key)
    rw [recent_image] at hlookup
    have hmem : keyImage key ∈ table ↔ (v.recent? key).isSome = true := by
      rw [← AList.lookup_isSome, hlookup, Option.isSome_map]
    have herase := hholds.erase (keyImage key)
    rw [others_image] at herase
    by_cases hfound : (v.recent? key).isSome = true
    · have hothers : ∀ c ∈ v.others key, c.Printable := by
        intro c hc
        exact h.printable c (mem_without.mp hc).1
      obtain ⟨lines, hprint, hlisting⟩ := printElements_of_holds order herase hothers
      refine ⟨lines, some (table.erase (keyImage key)), ?_, ⟨h.created, herase, hothers⟩, ?_⟩
      · rw [EcTable.exec, EcTable.remove, setKeyBuf_eq, CacheView.reply, if_pos hfound]
        simp only [Option.bind_eq_bind, Option.bind_some, if_pos (hmem.mpr hfound)]
        rw [hprint]
        rfl
      · rw [CacheView.Logs, CacheView.changes, if_pos hfound]
        exact hlisting
    · have hothers : v.others key = v.live := by
        rw [CacheView.others, without, List.filter_eq_self]
        intro c hc
        rw [decide_eq_true_iff]
        intro hkey
        apply hfound
        rw [CacheView.recent?, List.find?_isSome]
        exact ⟨c, hc, decide_eq_true hkey⟩
      refine ⟨[], some table, ?_, ?_, ?_⟩
      · rw [EcTable.exec, EcTable.remove, setKeyBuf_eq, CacheView.reply, if_neg hfound]
        simp only [Option.bind_eq_bind, Option.bind_some, if_neg (mt hmem.mp hfound)]
        rfl
      · rwa [CacheView.after, hothers]
      · rw [CacheView.Logs, CacheView.changes, if_neg hfound]

/-- A table is emptied, and its empty state written to the log. -/
theorem removeAll_some (order : HashOrder) (table : EcEntries) :
    EcTable.removeAll order (some table) = some (0, [.elements 0], some ∅) := by
  have hempty : Holds (fun c => keyImage c.key) entryOf ∅ [] := .empty
  obtain ⟨lines, hprint, rest, hlines, hrest⟩ :=
    printElements_of_holds order hempty (fun _ hc => absurd hc List.not_mem_nil)
  rw [List.map_nil, List.perm_nil] at hrest
  rw [EcTable.removeAll, removeScanned_eq (order.perm table)]
  simp only [ne_eq, not_true_eq_false, if_false]
  rw [hprint, hlines, hrest]
  rfl

theorem Shows.removeAll (h : Shows t v) (order : HashOrder) :
    Performs v .removeAll (EcTable.exec order t .removeAll) := by
  have hcreated := h.created
  have hnone : ∀ c ∈ (v.after .removeAll).live, c.Printable :=
    fun _ hc => absurd hc List.not_mem_nil
  cases t with
  | none =>
    refine ⟨[], none, ?_, ⟨hcreated, .empty, hnone⟩, ?_⟩
    · rw [CacheView.reply, ← hcreated]
      rfl
    · rw [CacheView.Logs, CacheView.changes, ← hcreated]
      rfl
  | some table =>
    refine ⟨[.elements 0], some ∅, ?_, ⟨hcreated, .empty, hnone⟩, ?_⟩
    · rw [EcTable.exec, removeAll_some, CacheView.reply, ← hcreated]
      rfl
    · rw [CacheView.Logs, CacheView.changes, ← hcreated]
      exact ⟨[], rfl, .nil⟩

theorem Shows.destroy (h : Shows t v) (order : HashOrder) :
    Performs v .destroy (EcTable.exec order t .destroy) := by
  have hcreated := h.created
  cases t with
  | none =>
    refine ⟨[], none, ?_, .start, ?_⟩
    · rw [CacheView.reply, ← hcreated]
      rfl
    · rw [CacheView.Logs, CacheView.changes, ← hcreated]
      rfl
  | some table =>
    refine ⟨[.elements 0], none, ?_, .start, ?_⟩
    · rw [EcTable.exec, EcTable.destroy, removeAll_some, CacheView.reply, ← hcreated]
      rfl
    · rw [CacheView.Logs, CacheView.changes, ← hcreated]
      exact ⟨[], rfl, .nil⟩

/-- Every call of the cache. -/
theorem Shows.exec (h : Shows t v) (order : HashOrder) (command : CacheCommand) :
    (command.Printable → Performs v command (EcTable.exec order t command)) ∧
      (¬command.Printable → EcTable.exec order t command = none) := by
  cases command with
  | store c => exact h.store order c
  | find key => exact ⟨fun _ => h.find order key, fun hnot => absurd trivial hnot⟩
  | itemsCount => exact ⟨fun _ => h.itemsCount order, fun hnot => absurd trivial hnot⟩
  | remove key => exact ⟨fun _ => h.remove order key, fun hnot => absurd trivial hnot⟩
  | removeAll => exact ⟨fun _ => h.removeAll order, fun hnot => absurd trivial hnot⟩
  | destroy => exact ⟨fun _ => h.destroy order, fun hnot => absurd trivial hnot⟩

/-- A call that does not get stuck does what the view says. -/
theorem Shows.step {call : CacheCall} {t' : EcTable} (h : Shows t v)
    (hstep : CacheStep t call t') :
    call.reply = v.reply call.command ∧ Shows t' (v.after call.command) ∧
      v.Logs call.command call.lines := by
  obtain ⟨order, hexec⟩ := hstep
  obtain ⟨hdefined, hstuck⟩ := h.exec order call.command
  by_cases hprintable : call.command.Printable
  · obtain ⟨lines, t'', hexec', hshows, hlogs⟩ := hdefined hprintable
    rw [hexec', Option.some.injEq, Prod.mk.injEq, Prod.mk.injEq] at hexec
    obtain ⟨hreply, hlines, rfl⟩ := hexec
    rw [← hlines]
    exact ⟨hreply.symm, hshows, hlogs⟩
  · rw [hstuck hprintable] at hexec
    cases hexec

theorem Shows.run {calls : List CacheCall} {t' : EcTable} (h : Shows t v)
    (hrun : Runs CacheStep t calls t') :
    Shows t' (calls.foldl (fun v call => v.after call.command) v) := by
  induction hrun generalizing v with
  | nil t => exact h
  | cons hstep _ ih => exact ih (h.step hstep).2.1

end Table

/-! ## The table of the lookups -/

namespace EcTable

variable {order : HashOrder} {t t' : EcTable}

theorem store_hashTab {c : CacheSet} {ret : Int32} {lines : List InfoLine}
    (h : store order t c.key c.response c.error = some (ret, lines, t')) :
    ecStore t.hashTab c.key c.response c.error = some t'.hashTab := by
  rw [store, setKeyBuf_eq, strncpy_min] at h
  simp only [Option.bind_eq_bind, Option.bind_some, Option.bind_eq_some_iff] at h
  obtain ⟨printed, -, hret⟩ := h
  cases hret
  rw [ecStore_eq]
  refine congrArg (fun lookup => some (some lookup)) (funext fun k => ?_)
  change _ = AList.lookup k (AList.insert (keyImage c.key) (entryOf c) (t.getD ∅))
  by_cases hk : k = keyImage c.key
  · rw [hk, Function.update_self, AList.lookup_insert]
  · rw [Function.update_of_ne hk, AList.lookup_insert_ne hk]
    cases t <;> rfl

theorem find_hashTab (t : EcTable) (key : Text) :
    find t key = (ecFind t.hashTab key).map fun found => found.elim (.ret (-1)) .found := by
  cases t with
  | none => rfl
  | some table =>
    rw [find, hashTab, Option.map_some, ecFind, setKeyBuf_eq]
    simp only [Option.bind_eq_bind, Option.bind_some]
    cases table.lookup (keyImage key) <;> rfl

end EcTable

/-- The store of a call. -/
def CacheCommand.stored? : CacheCommand → Option CacheSet
  | .store c => some c
  | _ => none

/-- The call removes nothing. -/
def CacheCommand.Keeps : CacheCommand → Prop
  | .store _ | .find _ | .itemsCount => True
  | .remove _ | .removeAll | .destroy => False

theorem CacheStep.hashTab {t t' : EcTable} {call : CacheCall} (h : CacheStep t call t')
    (hkeeps : call.command.Keeps) :
    cacheSets t.hashTab call.command.stored?.toList = some t'.hashTab := by
  obtain ⟨command, reply, lines⟩ := call
  obtain ⟨order, hexec⟩ := h
  cases command with
  | store c =>
    simp only [EcTable.exec, Option.bind_eq_bind, Option.bind_eq_some_iff] at hexec
    obtain ⟨⟨ret, lines', t₁⟩, hstore, hreply⟩ := hexec
    cases hreply
    have hset := EcTable.store_hashTab hstore
    rw [CacheCommand.stored?, Option.toList_some, cacheSets, hset]
    rfl
  | find key =>
    simp only [EcTable.exec, Option.bind_eq_bind, Option.bind_eq_some_iff] at hexec
    obtain ⟨reply', -, hreply⟩ := hexec
    cases hreply
    rfl
  | itemsCount =>
    cases hexec
    rfl
  | remove key => exact hkeeps.elim
  | removeAll => exact hkeeps.elim
  | destroy => exact hkeeps.elim

/-- As long as nothing is removed, the table is the one that the lookups of a backend use, and they
find in it what `find` does. -/
theorem hashTab_of_runs {calls : List CacheCall} {t t' : EcTable} (hrun : Runs CacheStep t calls t')
    (hkeeps : ∀ call ∈ calls, call.command.Keeps) :
    cacheSets t.hashTab (calls.filterMap fun call => call.command.stored?) = some t'.hashTab ∧
      ∀ key, t'.find key =
        (ecFind t'.hashTab key).map fun found => found.elim (.ret (-1)) .found := by
  refine ⟨?_, t'.find_hashTab⟩
  induction hrun with
  | nil t => rfl
  | @cons t t₁ t' call calls hstep _ ih =>
    have hfirst := hstep.hashTab (hkeeps call List.mem_cons_self)
    have hrest := ih (fun call hcall => hkeeps call (List.mem_cons_of_mem _ hcall))
    have hsplit : (call :: calls).filterMap (fun call => call.command.stored?) =
        call.command.stored?.toList ++ calls.filterMap fun call => call.command.stored? := by
      rw [List.filterMap_cons]
      cases call.command.stored? <;> rfl
    rw [hsplit, cacheSets_append, hfirst]
    exact hrest

/-! ## Sessions of calls -/

/-- In every session of calls of the cache, in any order and with any order of its scans, each call
replies what the live stores say, and a call that changes the table logs their number and a line
for each of them. -/
theorem cache_session {before after : List CacheCall} {call : CacheCall} {t : EcTable}
    (hrun : Runs CacheStep none (before ++ call :: after) t) :
    call.reply = (CacheView.ofCalls before).reply call.command ∧
      (CacheView.ofCalls before).Logs call.command call.lines := by
  obtain ⟨t₁, hbefore, hrest⟩ := hrun.split
  cases hrest with
  | cons hstep _ =>
    obtain ⟨hreply, -, hlogs⟩ := (Shows.start.run hbefore).step hstep
    exact ⟨hreply, hlogs⟩

theorem cachedNumber_key_no_zero : 0 ∉ ascii "380" := by decide

theorem cachedNumber_response_no_zero : 0 ∉ ascii "7044" := by decide

/-- A store of an answer for the number `380`. -/
def cachedNumber : CacheSet where
  key := ⟨ascii "380", cachedNumber_key_no_zero⟩
  response := ⟨ascii "7044", cachedNumber_response_no_zero⟩
  error := false

/-- A hash table that is scanned as it was filled. -/
def sampleOrder : HashOrder where
  scan := AList.entries
  perm _ := .refl _

theorem runs_cachedNumber :
    ∃ stored found t, stored.command = .store cachedNumber ∧
      found.command = .find cachedNumber.key ∧ Runs CacheStep none ([stored] ++ found :: []) t := by
  have hprintable : cachedNumber.Printable := .inr rfl
  obtain ⟨lines, t, hstore, hshows, -⟩ := (Shows.start.store sampleOrder cachedNumber).1 hprintable
  obtain ⟨lines', t', hfind, -, -⟩ := hshows.find sampleOrder cachedNumber.key
  exact ⟨⟨_, _, lines⟩, ⟨_, _, lines'⟩, t', rfl, rfl, .cons ⟨sampleOrder, hstore⟩
    (.single ⟨sampleOrder, hfind⟩)⟩

theorem cache_session_cachedNumber :
    ∃ call : CacheCall, call.command = .find cachedNumber.key ∧
      call.reply = .found (entryOf cachedNumber) := by
  obtain ⟨stored, found, t, hstored, hfound, hrun⟩ := runs_cachedNumber
  have hreply := (cache_session hrun).1
  rw [CacheView.ofCalls, List.foldl_cons, List.foldl_nil, hstored, hfound] at hreply
  exact ⟨found, hfound, hreply⟩

/-- After every session a call has a result exactly if it is not a store of a response of 2048
bytes or more with the error flag set; such a store reads behind the entry. -/
theorem cache_defined {calls : List CacheCall} {t : EcTable} (hrun : Runs CacheStep none calls t)
    (order : HashOrder) (command : CacheCommand) :
    (EcTable.exec order t command).isSome = true ↔ command.Printable := by
  obtain ⟨hdefined, hstuck⟩ := (Shows.start.run hrun).exec order command
  constructor
  · intro hsome
    by_contra hprintable
    rw [hstuck hprintable] at hsome
    cases hsome
  · intro hprintable
    obtain ⟨lines, t', hexec, -, -⟩ := hdefined hprintable
    rw [hexec]
    rfl

theorem cache_defined_cachedNumber :
    ∃ t, (EcTable.exec sampleOrder t (.store cachedNumber)).isSome = true := by
  obtain ⟨stored, found, t, -, -, hrun⟩ := runs_cachedNumber
  have hprintable : cachedNumber.Printable := .inr rfl
  exact ⟨t, (cache_defined hrun sampleOrder (.store cachedNumber)).mpr hprintable⟩

end YetiPgExt.Lnp
