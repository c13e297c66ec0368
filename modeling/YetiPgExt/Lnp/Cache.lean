import YetiPgExt.Library.CString
import YetiPgExt.Library.Stores
import YetiPgExt.Postgres.Datum

/-!
# The cache of answers

`endpoints_cache.c`: the answers that `lnp_endpoints_cache_set` stores and that the resolve
functions look up before they ask an endpoint. The hash table is a map from the 256 bytes that
`set_key_buf` makes of a key.

The first 256 bytes of a text are all that its key tells (`setKeyBuf_eq_iff`): a lookup answers with
the most recent store under a text with the same first 256 bytes (`cachedAnswer_eq`).
-/

set_option autoImplicit false

namespace YetiPgExt.Lnp

open YetiPgExt.Library YetiPgExt.Postgres

/-- `EC_KEY_MAX_LENGTH` -/
def ecKeyMaxLength : Nat := 256

/-- `EC_RESPONSE_MAX_LENGTH` -/
def ecResponseMaxLength : Nat := 2 * 1024

/-- `EndpointCacheEntry`, without its key. -/
structure EndpointCacheEntry where
  response : Bytes
  error : Bool
  deriving DecidableEq

/-- The hash table: `hash_tab`, which is `NULL` before the first store. -/
abbrev HashTab := Option (Bytes → Option EndpointCacheEntry)

/-- `set_key_buf`; no result if it stores out of bounds. -/
def setKeyBuf (key : Text) : Option Bytes :=
  strncpy (zeros ecKeyMaxLength) key.bytes (min key.bytes.length ecKeyMaxLength)

/-- `__ec_store`. `HASH_ENTER` finds the entry of the key or makes one; all of its response is
cleared. -/
def ecStore (hashTab : HashTab) (key response : Text) (error : Bool) : Option HashTab := do
  let table := hashTab.getD (fun _ => none)
  let keyBuf ← setKeyBuf key
  let response ← strncpy (zeros ecResponseMaxLength) response.bytes
    (min response.bytes.length ecResponseMaxLength)
  return some (Function.update table keyBuf (some ⟨response, error⟩))

/-- `__ec_find`: the entry, or `none` for a return value of -1. -/
def ecFind (hashTab : HashTab) (key : Text) : Option (Option EndpointCacheEntry) :=
  match hashTab with
  | none => some none
  | some table => do
    let keyBuf ← setKeyBuf key
    return table keyBuf

/-- A call of `lnp_endpoints_cache_set`. -/
structure CacheSet where
  key : Text
  response : Text
  error : Bool
  deriving DecidableEq

/-- The calls of a session, one after the other. -/
def cacheSets : HashTab → List CacheSet → Option HashTab
  | hashTab, [] => some hashTab
  | hashTab, c :: calls => do
    let hashTab ← ecStore hashTab c.key c.response c.error
    cacheSets hashTab calls

/-- The answer from the cache: the response, read as a string, and the error flag. -/
structure CacheAnswer where
  response : Bytes
  error : Bool
  deriving DecidableEq

/-- What a resolve function gets from the cache after the calls of a session: an answer, or that
the network is asked. -/
def cachedAnswer (calls : List CacheSet) (key : Text) : Option (Option CacheAnswer) := do
  let hashTab ← cacheSets none calls
  let found ← ecFind hashTab key
  match found with
  | none => return none
  | some entry =>
    let response ← cString? entry.response
    return some ⟨response, entry.error⟩

/-! ## The key image -/

/-- The bytes of a key that matter. -/
def keyPrefix (key : Text) : Bytes := key.bytes.take ecKeyMaxLength

/-- The image of a key. -/
def keyImage (key : Text) : Bytes := keyPrefix key ++ zeros (ecKeyMaxLength - key.bytes.length)

theorem setKeyBuf_eq (key : Text) : setKeyBuf key = some (keyImage key) := strncpy_min _ _

theorem not_mem_keyPrefix (key : Text) : 0 ∉ keyPrefix key := by
  intro hmem
  exact key.no_zero (List.mem_of_mem_take hmem)

/-- Two keys have the same image exactly if they have the same first bytes. -/
theorem keyImage_inj {k k' : Text} : keyImage k = keyImage k' ↔ keyPrefix k = keyPrefix k' := by
  constructor
  · intro h
    have htake := congrArg (List.takeWhile (fun b => decide (b ≠ 0))) h
    rwa [keyImage, keyImage, takeWhile_append_zeros (not_mem_keyPrefix k),
      takeWhile_append_zeros (not_mem_keyPrefix k')] at htake
  · intro h
    have hlen := congrArg List.length h
    simp only [keyPrefix, List.length_take] at hlen
    have hpad : ecKeyMaxLength - k.bytes.length = ecKeyMaxLength - k'.bytes.length := by omega
    rw [keyImage, keyImage, h, hpad]

/-- A lookup stays inside the key buffer. -/
theorem exists_ecFind (hashTab : HashTab) (key : Text) :
    ∃ found, ecFind hashTab key = some found := by
  cases hashTab with
  | none => exact ⟨none, rfl⟩
  | some table =>
    rw [ecFind, setKeyBuf_eq]
    exact ⟨_, rfl⟩

/-! ## The answers -/

/-- The entry that a call leaves under its key. -/
def entryOf (c : CacheSet) : EndpointCacheEntry where
  response := c.response.bytes.take ecResponseMaxLength ++
    zeros (ecResponseMaxLength - c.response.bytes.length)
  error := c.error

theorem ecStore_eq (hashTab : HashTab) (c : CacheSet) :
    ecStore hashTab c.key c.response c.error =
      some (some (Function.update (hashTab.getD (fun _ => none)) (keyImage c.key)
        (some (entryOf c)))) := by
  rw [ecStore, setKeyBuf_eq, strncpy_min]
  rfl

/-- The calls of a session leave the table that the stores give. -/
theorem cacheSets_eq (table : Bytes → Option EndpointCacheEntry) (calls : List CacheSet) :
    cacheSets (some table) calls =
      some (some (replay (fun c => keyImage c.key) entryOf table calls)) := by
  induction calls generalizing table with
  | nil => rfl
  | cons c calls ih =>
    rw [cacheSets, ecStore_eq, replay_cons]
    exact ih _

theorem cacheSets_append (hashTab : HashTab) (calls calls' : List CacheSet) :
    cacheSets hashTab (calls ++ calls') =
      (cacheSets hashTab calls).bind fun hashTab => cacheSets hashTab calls' := by
  induction calls generalizing hashTab with
  | nil => rfl
  | cons c calls ih =>
    rw [List.cons_append, cacheSets, ecStore_eq, cacheSets, ecStore_eq]
    exact ih _

/-- A lookup finds the entry of the most recent store under the image of the key. -/
theorem ecFind_cacheSets (calls : List CacheSet) (key : Text) :
    ∃ hashTab, cacheSets none calls = some hashTab ∧
      ecFind hashTab key =
        some ((lastStore (fun c => keyImage c.key) calls (keyImage key)).map entryOf) := by
  cases calls with
  | nil => exact ⟨none, rfl, rfl⟩
  | cons c calls =>
    refine ⟨some (replay (fun c => keyImage c.key) entryOf (fun _ => none) (c :: calls)), ?_, ?_⟩
    · rw [cacheSets, ecStore_eq]
      exact cacheSets_eq _ calls
    · rw [ecFind, setKeyBuf_eq]
      change some (replay (fun c => keyImage c.key) entryOf (fun _ => none) (c :: calls)
        (keyImage key)) = _
      rw [replay_apply, Option.or_none]

/-- What a store answers. -/
def answerOf (c : CacheSet) : CacheAnswer := ⟨c.response.bytes, c.error⟩

/-- The most recent store under a key that agrees with the given one. -/
def recentAnswer {α : Type} [DecidableEq α] (view : Text → α) (calls : List CacheSet) (key : Text) :
    Option CacheAnswer :=
  (lastStore (fun c => view c.key) calls (view key)).map answerOf

theorem cString?_entryOf {c : CacheSet} (h : c.response.bytes.length < ecResponseMaxLength) :
    cString? (entryOf c).response = some c.response.bytes := by
  rw [entryOf, List.take_of_length_le (Nat.le_of_lt h)]
  exact cString?_zeros c.response.no_zero (Nat.sub_pos_of_lt h)

section

variable {calls : List CacheSet} {key : Text}

theorem cachedAnswer_eq_recent
    (hshort : ∀ c ∈ calls, c.response.bytes.length < ecResponseMaxLength) :
    cachedAnswer calls key = some (recentAnswer keyPrefix calls key) := by
  obtain ⟨hashTab, hsets, hfind⟩ := ecFind_cacheSets calls key
  have himage : lastStore (fun c => keyImage c.key) calls (keyImage key) =
      lastStore (fun c => keyPrefix c.key) calls (keyPrefix key) :=
    lastStore_congr (fun c _ => keyImage_inj)
  rw [himage] at hfind
  rw [cachedAnswer, hsets, recentAnswer]
  simp only [Option.bind_eq_bind, Option.bind_some, hfind]
  cases hlast : lastStore (fun c => keyPrefix c.key) calls (keyPrefix key) with
  | none => rfl
  | some c =>
    have hc : c ∈ calls := List.mem_reverse.mp (List.mem_of_find?_eq_some hlast)
    simp only [Option.map_some, cString?_entryOf (hshort c hc), Option.bind_some]
    rfl

theorem recentAnswer_eq_none_iff {α : Type} [DecidableEq α] {view : Text → α} :
    recentAnswer view calls key = none ↔ ∀ c ∈ calls, view c.key ≠ view key := by
  rw [recentAnswer, Option.map_eq_none_iff, lastStore_eq_none_iff]

end

/-- The cache answers with the most recent store under a text that has the same first 256 bytes, and
it has an answer exactly if there is one. Where no other text of the session has the same first
bytes, this is the most recent store under the text itself. -/
theorem cachedAnswer_eq (calls : List CacheSet) (key : Text)
    (hshort : ∀ c ∈ calls, c.response.bytes.length < ecResponseMaxLength) :
    cachedAnswer calls key = some (recentAnswer keyPrefix calls key) ∧
    (recentAnswer keyPrefix calls key = none ↔ ∀ c ∈ calls, keyPrefix c.key ≠ keyPrefix key) ∧
    ((∀ c ∈ calls, keyPrefix c.key = keyPrefix key → c.key = key) →
      cachedAnswer calls key = some (recentAnswer id calls key)) := by
  refine ⟨cachedAnswer_eq_recent hshort, recentAnswer_eq_none_iff, ?_⟩
  intro hinj
  rw [cachedAnswer_eq_recent hshort, recentAnswer, recentAnswer]
  congr 2
  apply lastStore_congr
  intro c hc
  constructor
  · intro h
    exact hinj c hc h
  · intro h
    exact congrArg keyPrefix h

/-- A number that is stored twice, with another one in between. -/
def shortStores : List CacheSet :=
  [⟨⟨ascii "1234", by decide⟩, ⟨ascii "5678", by decide⟩, false⟩,
    ⟨⟨ascii "12", by decide⟩, ⟨ascii "34", by decide⟩, false⟩,
    ⟨⟨ascii "1234", by decide⟩, ⟨ascii "busy", by decide⟩, true⟩]

theorem cachedAnswer_eq_short :
    cachedAnswer shortStores ⟨ascii "1234", by decide⟩ = some (some ⟨ascii "busy", true⟩) ∧
      cachedAnswer shortStores ⟨ascii "12", by decide⟩ = some (some ⟨ascii "34", false⟩) := by
  have hshort : ∀ c ∈ shortStores, c.response.bytes.length < ecResponseMaxLength := by decide
  have h := (cachedAnswer_eq shortStores ⟨ascii "1234", by decide⟩ hshort).1
  have h' := (cachedAnswer_eq shortStores ⟨ascii "12", by decide⟩ hshort).1
  rw [h, h']
  exact ⟨rfl, rfl⟩

/-- A key of 257 bytes that ends in `b`. -/
def longKey (b : UInt8) (hb : 0 ≠ b) : Text where
  bytes := List.replicate ecKeyMaxLength 97 ++ [b]
  no_zero := by
    intro hmem
    rcases List.mem_append.mp hmem with hmem | hmem
    · exact absurd (List.eq_of_mem_replicate hmem) (by decide)
    · exact hb (List.mem_singleton.mp hmem)

theorem keyPrefix_longKey (b : UInt8) (hb : 0 ≠ b) :
    keyPrefix (longKey b hb) = List.replicate ecKeyMaxLength 97 :=
  List.take_left' List.length_replicate

/-- The answer that is stored under a long key is found under another one. -/
theorem cachedAnswer_collision :
    ¬ ∀ (calls : List CacheSet) (key : Text),
      (∀ c ∈ calls, c.response.bytes.length < ecResponseMaxLength) →
      cachedAnswer calls key = some (recentAnswer id calls key) := by
  intro h
  have hlen : (ascii "5678").length < ecResponseMaxLength := by decide
  have hshort : ∀ c ∈ [(⟨longKey 98 (by decide), ⟨ascii "5678", by decide⟩, false⟩ : CacheSet)],
      c.response.bytes.length < ecResponseMaxLength := by
    intro c hc
    rw [List.mem_singleton.mp hc]
    exact hlen
  have hkeys : longKey 98 (by decide) ≠ longKey 99 (by decide) := by
    intro heq
    have hlast := List.append_cancel_left (Text.eq_iff.mp heq)
    exact absurd hlast (by decide)
  -- no store is under the key itself, but one is under the first bytes of it
  have hnone : recentAnswer id [⟨longKey 98 (by decide), ⟨ascii "5678", by decide⟩, false⟩]
      (longKey 99 (by decide)) = none := by
    apply recentAnswer_eq_none_iff.mpr
    intro c hc
    rw [List.mem_singleton.mp hc]
    exact hkeys
  have hexact := h _ (longKey 99 (by decide)) hshort
  rw [cachedAnswer_eq_recent hshort, hnone, Option.some.injEq, recentAnswer_eq_none_iff] at hexact
  have hne := hexact _ (List.mem_singleton_self _)
  rw [keyPrefix_longKey, keyPrefix_longKey] at hne
  exact hne rfl

/-! ## What is read back -/

/-- Right after a store the lookup of the key hands back the response, read as a string inside its
field, and the error flag. -/
def ReadsBack (hashTab : HashTab) (key response : Text) (error : Bool) : Prop :=
  ∃ hashTab' entry, ecStore hashTab key response error = some hashTab' ∧
    ecFind hashTab' key = some (some entry) ∧ cString? entry.response = some response.bytes ∧
    entry.error = error

/-- A response that fills its field leaves no room for a terminator. -/
theorem cString?_entryOf_full {c : CacheSet} (h : ecResponseMaxLength ≤ c.response.bytes.length) :
    cString? (entryOf c).response = none := by
  have hpad : ecResponseMaxLength - c.response.bytes.length = 0 := Nat.sub_eq_zero_of_le h
  have hmem : 0 ∉ c.response.bytes.take ecResponseMaxLength := by
    intro hmem
    exact c.response.no_zero (List.mem_of_mem_take hmem)
  rw [entryOf, hpad, zeros, List.replicate_zero, List.append_nil, cString?, if_neg hmem]

/-- The lookup right after a store finds the entry of that store. -/
theorem ecFind_ecStore (hashTab : HashTab) (c : CacheSet) :
    ∃ hashTab', ecStore hashTab c.key c.response c.error = some hashTab' ∧
      ecFind hashTab' c.key = some (some (entryOf c)) := by
  refine ⟨_, ecStore_eq hashTab c, ?_⟩
  rw [ecFind, setKeyBuf_eq]
  exact congrArg some (Function.update_self _ _ _)

theorem readsBack_iff_cString? {hashTab : HashTab} {key response : Text} {error : Bool} :
    ReadsBack hashTab key response error ↔
      cString? (entryOf ⟨key, response, error⟩).response = some response.bytes := by
  obtain ⟨hashTab', hstore, hfind⟩ := ecFind_ecStore hashTab ⟨key, response, error⟩
  constructor
  · rintro ⟨hashTab'', entry, hstore', hfind', hread, -⟩
    rw [hstore, Option.some.injEq] at hstore'
    subst hstore'
    rw [hfind, Option.some.injEq, Option.some.injEq] at hfind'
    rwa [hfind']
  · intro hread
    exact ⟨hashTab', _, hstore, hfind, hread, rfl⟩

/-- Whatever the cache holds, a response is read back verbatim exactly if it leaves room for a
terminator in its field. -/
theorem readsBack_iff (hashTab : HashTab) (key response : Text) (error : Bool) :
    ReadsBack hashTab key response error ↔ response.bytes.length < ecResponseMaxLength := by
  rw [readsBack_iff_cString?]
  constructor
  · intro hread
    by_contra hlong
    rw [cString?_entryOf_full (Nat.le_of_not_lt hlong)] at hread
    cases hread
  · intro hlen
    exact cString?_entryOf hlen

/-- A response of 2048 letters. -/
def fullResponse : Text where
  bytes := List.replicate ecResponseMaxLength 97
  no_zero := fun hmem => absurd (List.eq_of_mem_replicate hmem) (by decide)

/-- A response of 2048 bytes fills the field, and the string read from it does not end inside. -/
theorem not_readsBack : ¬ ∀ (hashTab : HashTab) (key response : Text) (error : Bool),
    key.bytes.length ≤ ecKeyMaxLength → ReadsBack hashTab key response error := by
  intro h
  have hread := readsBack_iff_cString?.mp
    (h none ⟨ascii "1234", by decide⟩ fullResponse false (by decide))
  rw [cString?_entryOf_full (Nat.le_of_eq List.length_replicate.symm)] at hread
  cases hread

end YetiPgExt.Lnp
