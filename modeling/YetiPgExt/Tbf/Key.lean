import YetiPgExt.Library.Bytes

/-!
# The key image of the rate limiter's hash table

`tbfHashKey` is an `int32 namespace_id` followed by an 8-byte aligned `int64 bucket_id`, so the
16 bytes of the struct have 4 bytes of padding at offset 4. `tbf_rate_check` declares the struct
on its stack and assigns the two members; the padding keeps what the stack held. The table is
created with `HASH_BLOBS`: it compares the raw 16 bytes.

`KeyImage.ofCall_eq_iff`: two calls build the same image exactly when they agree on both members
and on the padding.
-/

set_option autoImplicit false

namespace YetiPgExt.Tbf

open YetiPgExt.Library

/-- `sizeof(tbfHashKey)`. -/
def keySize : Nat := 16

/-- Offset of `bucket_id` in `tbfHashKey`. -/
def bucketIdOffset : Nat := 8

/-- The raw bytes of a `tbfHashKey`. -/
@[ext] structure KeyImage where
  bytes : Bytes
  length_bytes : bytes.length = keySize
  deriving DecidableEq

/-- Sixteen zero bytes can be the stack memory of a key. -/
theorem length_zeroStack : (List.replicate 16 (0 : UInt8)).length = keySize := List.length_replicate

namespace KeyImage

/-- `key.namespace_id = v`: bytes 0 to 3. -/
def setNamespaceId (key : KeyImage) (v : UInt32) : KeyImage where
  bytes := store key.bytes 0 (encodeLE 4 v.toNat)
  length_bytes := by
    rw [length_store (by simp [key.length_bytes, keySize]), key.length_bytes]

/-- `key.bucket_id = v`: bytes 8 to 15. -/
def setBucketId (key : KeyImage) (v : UInt64) : KeyImage where
  bytes := store key.bytes bucketIdOffset (encodeLE 8 v.toNat)
  length_bytes := by
    rw [length_store (by simp [key.length_bytes, keySize, bucketIdOffset]), key.length_bytes]

/-- The key as `tbf_rate_check` builds it in the stack memory `stack`. -/
def ofCall (stack : KeyImage) (namespaceId : UInt32) (bucketId : UInt64) : KeyImage :=
  (stack.setNamespaceId namespaceId).setBucketId bucketId

/-- The padding bytes, at offsets 4 to 7. -/
def padding (key : KeyImage) : Bytes := slice key.bytes 4 4

/-- The `namespace_id` member of an image. -/
def namespaceId (key : KeyImage) : UInt32 := UInt32.ofNat (decodeLE (slice key.bytes 0 4))

/-- The `bucket_id` member of an image. -/
def bucketId (key : KeyImage) : UInt64 := UInt64.ofNat (decodeLE (slice key.bytes bucketIdOffset 8))

/-- The image is the namespace bytes, the padding of the stack, the bucket bytes. -/
theorem bytes_ofCall (stack : KeyImage) (ns : UInt32) (b : UInt64) :
    (ofCall stack ns b).bytes =
      encodeLE 4 ns.toNat ++ (stack.padding ++ encodeLE 8 b.toNat) := by
  have hstack : stack.bytes.length = 16 := stack.length_bytes
  have hlen : (stack.bytes.drop 4).length = 12 := by rw [List.length_drop, hstack]
  have hns : (stack.setNamespaceId ns).bytes = encodeLE 4 ns.toNat ++ stack.bytes.drop 4 := by
    simp [setNamespaceId, store]
  have htake : (encodeLE 4 ns.toNat ++ stack.bytes.drop 4).take 8 =
      encodeLE 4 ns.toNat ++ stack.padding := by
    rw [List.take_append]
    simp [padding, slice]
  have hdrop : (encodeLE 4 ns.toNat ++ stack.bytes.drop 4).drop 16 = [] := by
    apply List.drop_eq_nil_of_le
    simp [hlen]
  have hset : (ofCall stack ns b).bytes =
      (stack.setNamespaceId ns).bytes.take 8 ++
        (encodeLE 8 b.toNat ++ (stack.setNamespaceId ns).bytes.drop 16) := by
    simp [ofCall, setBucketId, store, bucketIdOffset]
  rw [hset, hns, htake, hdrop, List.append_nil, List.append_assoc]

theorem length_padding (key : KeyImage) : key.padding.length = 4 :=
  length_slice (by simp [key.length_bytes, keySize])

theorem padding_ofCall (stack : KeyImage) (ns : UInt32) (b : UInt64) :
    (ofCall stack ns b).padding = stack.padding := by
  rw [padding, slice, bytes_ofCall, List.drop_left' (length_encodeLE 4 _),
    List.take_left' (length_padding stack)]

theorem namespaceId_ofCall (stack : KeyImage) (ns : UInt32) (b : UInt64) :
    (ofCall stack ns b).namespaceId = ns := by
  have hns : ns.toNat < 256 ^ 4 := ns.toNat_lt
  rw [namespaceId, slice, bytes_ofCall, List.drop_zero, List.take_left' (length_encodeLE 4 _),
    decodeLE_encodeLE_of_lt hns, UInt32.ofNat_toNat]

theorem bucketId_ofCall (stack : KeyImage) (ns : UInt32) (b : UInt64) :
    (ofCall stack ns b).bucketId = b := by
  have hb : b.toNat < 256 ^ 8 := b.toNat_lt
  have hpre : (encodeLE 4 ns.toNat ++ stack.padding).length = bucketIdOffset := by
    rw [List.length_append, length_encodeLE, length_padding, bucketIdOffset]
  rw [bucketId, slice, bytes_ofCall, ← List.append_assoc, List.drop_left' hpre,
    List.take_of_length_le (by simp), decodeLE_encodeLE_of_lt hb, UInt64.ofNat_toNat]

/-- The encoding law of the key: members and padding decide the image. -/
theorem ofCall_eq_iff {stack stack' : KeyImage} {ns ns' : UInt32} {b b' : UInt64} :
    ofCall stack ns b = ofCall stack' ns' b' ↔
      ns = ns' ∧ b = b' ∧ stack.padding = stack'.padding := by
  constructor
  · intro h
    refine ⟨?_, ?_, ?_⟩
    · rw [← namespaceId_ofCall stack ns b, h, namespaceId_ofCall]
    · rw [← bucketId_ofCall stack ns b, h, bucketId_ofCall]
    · rw [← padding_ofCall stack ns b, h, padding_ofCall]
  · rintro ⟨rfl, rfl, hpad⟩
    apply KeyImage.ext
    rw [bytes_ofCall, bytes_ofCall, hpad]

/-- Every image is the key of a call. -/
theorem ofCall_self (key : KeyImage) : ofCall key key.namespaceId key.bucketId = key := by
  have hlength : key.bytes.length = 16 := key.length_bytes
  have hns : encodeLE 4 key.namespaceId.toNat = slice key.bytes 0 4 := by
    have hlt : decodeLE (slice key.bytes 0 4) < 256 ^ 4 := decodeLE_slice_lt (by omega)
    rw [namespaceId, UInt32.toNat_ofNat_of_lt' hlt, encodeLE_slice (by omega)]
  have hb : encodeLE 8 key.bucketId.toNat = slice key.bytes 8 8 := by
    have hlt : decodeLE (slice key.bytes 8 8) < 256 ^ 8 := decodeLE_slice_lt (by omega)
    rw [bucketId, bucketIdOffset, UInt64.toNat_ofNat_of_lt' hlt, encodeLE_slice (by omega)]
  apply KeyImage.ext
  have hlast : slice key.bytes 8 8 = (key.bytes.drop 4).drop 4 := by
    rw [slice, List.drop_drop, List.take_of_length_le (by rw [List.length_drop]; omega)]
  rw [bytes_ofCall, hns, hb, hlast, padding, slice, slice, List.take_append_drop, List.drop_zero,
    List.take_append_drop]

end KeyImage

end YetiPgExt.Tbf
