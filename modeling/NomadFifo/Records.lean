import Mathlib.Data.Fintype.Basic

/-!
# Wire records of the FIFO bridge

`bridge_fifo.hpp` fixes the records that cross the four ck_fifo queues:

* a `Request` (64 bytes) names a correlation id, a version, a kind, a key of
  at most 32 bytes and a traversal limit;
* a `Completion` (312 bytes) answers a Find or reports one step of a
  traversal, with a value of at most 256 bytes inline and a 32-byte hash or
  packed path;
* a `LargeValue` carries a value that does not fit inline, and the
  completion it belongs to then holds the length sentinel `0xFFFFFFFF`.

Byte buffers of fixed size are functions on `Fin n`, so a record cannot be
built with a buffer of the wrong size.  The request kind is stored as the
raw byte the caller wrote; `worker_fiber` dispatches on it and ignores any
byte that names no kind.
-/

namespace NomadFifo

/-- One digit of a trie path; `mpt::Nibbles` stores one per half byte. -/
abbrev Nibble := Fin 16

/-- The byte buffers `memcpy` fills: the copied bytes first, the zero
initialisation of the record after them. -/
def copyBytes {n : Nat} (data : List UInt8) : Fin n → UInt8 :=
  fun index => data.getD index 0

@[simp]
theorem copyBytes_apply {n : Nat} (data : List UInt8) (index : Fin n) :
    copyBytes data index = data.getD index 0 := rfl

/-- `NibblesView` of a byte string: the high half of each byte, then the low
half. -/
def bytesToNibbles : List UInt8 → List Nibble
  | [] => []
  | byte :: rest =>
      ⟨byte.toNat / 16, by
          have bound := byte.toNat_lt_size
          simp only [UInt8.size] at bound
          omega⟩ :: ⟨byte.toNat % 16, by omega⟩ :: bytesToNibbles rest

@[simp]
theorem bytesToNibbles_length (bytes : List UInt8) :
    (bytesToNibbles bytes).length = 2 * bytes.length := by
  induction bytes with
  | nil => rfl
  | cons byte rest inductionHypothesis =>
      simp only [bytesToNibbles, List.length_cons, inductionHypothesis]
      omega

/-! ## Requests -/

/-- `RequestType` of `bridge_fifo.hpp`. -/
inductive RequestType where
  | reqFindValue
  | reqFindNode
  | reqTraverse
  | reqShutdown
  deriving DecidableEq, Repr

namespace RequestType

/-- The byte each kind is stored as. -/
def code : RequestType → UInt8
  | reqFindValue => 1
  | reqFindNode => 2
  | reqTraverse => 3
  | reqShutdown => 255

/-- The cases of the `switch` in `worker_fiber`: a byte that names no kind
matches none of them. -/
def ofCode (byte : UInt8) : Option RequestType :=
  if byte = 1 then some reqFindValue
  else if byte = 2 then some reqFindNode
  else if byte = 3 then some reqTraverse
  else if byte = 255 then some reqShutdown
  else none

@[simp]
theorem ofCode_code (kind : RequestType) : ofCode kind.code = some kind := by
  cases kind <;> decide

end RequestType

/-- `Request`; the padding bytes are not modelled. -/
structure Request where
  userDataLo : UInt64
  userDataHi : UInt64
  version : UInt64
  type : UInt8
  keyLen : UInt8
  traverseLimit : UInt32
  key : Fin 32 → UInt8
  deriving DecidableEq

namespace Request

/-- The request `alloc_request` hands out: `memset` to zero. -/
def zero : Request :=
  ⟨0, 0, 0, 0, 0, 0, fun _ => 0⟩

/-- The 128-bit correlation id, as its two halves. -/
def userData (req : Request) : UInt64 × UInt64 :=
  (req.userDataLo, req.userDataHi)

/-- `byte_string_view{req.key, req.key_len}`.  A `key_len` above 32 reads
past the buffer in the source; the model reads the 32 bytes only. -/
def keyBytes (req : Request) : List UInt8 :=
  (List.ofFn req.key).take req.keyLen.toNat

/-- The nibble view the bridge hands to `db_.find` and starts a traversal
path from: `2 * key_len` nibbles. -/
def keyNibbles (req : Request) : List Nibble :=
  bytesToNibbles req.keyBytes

/-- The request names a Find: `worker_fiber` sends it to `process_find`. -/
def IsFind (req : Request) : Prop :=
  RequestType.ofCode req.type = some .reqFindValue ∨
    RequestType.ofCode req.type = some .reqFindNode

instance (req : Request) : Decidable req.IsFind :=
  inferInstanceAs (Decidable (_ ∨ _))

/-- The request names a traversal. -/
def IsTraverse (req : Request) : Prop :=
  RequestType.ofCode req.type = some .reqTraverse

instance (req : Request) : Decidable req.IsTraverse :=
  inferInstanceAs (Decidable (_ = _))

end Request

/-- `RequestNode`: the request a caller owns, named by its address.  The
queue entry embedded in the C++ node is modelled by the queue. -/
structure RequestNode where
  addr : Nat
  req : Request
  deriving DecidableEq

/-! ## Completions and large values -/

/-- `ResultStatus` of `bridge_fifo.hpp`. -/
inductive ResultStatus where
  | statusOk
  | statusNotFound
  | statusError
  | statusTraverseMore
  | statusTraverseEnd
  deriving DecidableEq, Repr

/-- `Completion`; the padding bytes are not modelled. -/
structure Completion where
  userDataLo : UInt64
  userDataHi : UInt64
  status : ResultStatus
  valueLen : UInt32
  value : Fin 256 → UInt8
  merkleHash : Fin 32 → UInt8
  deriving DecidableEq

/-- `sizeof(comp.value)`: the largest value carried inline. -/
def inlineCapacity : Nat := 256

/-- The `value_len` that marks a value delivered on the large-value queue. -/
def largeValueSentinel : UInt32 := 0xFFFFFFFF

/-- `UINT32_MAX`, the longest value `post_large_value` accepts. -/
def uint32Max : Nat := 0xFFFFFFFF

namespace Completion

/-- `Completion comp{}` with the correlation id filled in: every other byte
is zero, so the status reads `STATUS_OK`. -/
def blank (lo hi : UInt64) : Completion :=
  ⟨lo, hi, .statusOk, 0, fun _ => 0, fun _ => 0⟩

def userData (comp : Completion) : UInt64 × UInt64 :=
  (comp.userDataLo, comp.userDataHi)

@[simp]
theorem blank_userData (lo hi : UInt64) : (blank lo hi).userData = (lo, hi) :=
  rfl

/-- The value written inline, or the sentinel with nothing inline, as
`process_find` and `send_node` both do it. -/
def withValue (comp : Completion) (value : List UInt8) : Completion :=
  if value.length ≤ inlineCapacity then
    { comp with valueLen := UInt32.ofNat value.length, value := copyBytes value }
  else
    { comp with valueLen := largeValueSentinel }

@[simp]
theorem withValue_userData (comp : Completion) (value : List UInt8) :
    (comp.withValue value).userData = comp.userData := by
  unfold withValue; split <;> rfl

@[simp]
theorem withValue_status (comp : Completion) (value : List UInt8) :
    (comp.withValue value).status = comp.status := by
  unfold withValue; split <;> rfl

@[simp]
theorem withValue_merkleHash (comp : Completion) (value : List UInt8) :
    (comp.withValue value).merkleHash = comp.merkleHash := by
  unfold withValue; split <;> rfl

end Completion

/-- The payload of a `LargeValueNode`: correlation id, length and bytes. -/
structure LargeValue where
  userDataLo : UInt64
  userDataHi : UInt64
  len : UInt32
  data : List UInt8
  deriving DecidableEq

def LargeValue.userData (large : LargeValue) : UInt64 × UInt64 :=
  (large.userDataLo, large.userDataHi)

/-- `CompletionNode`, and `TraverseNode`, which is the same type. -/
structure CompletionNode where
  addr : Nat
  comp : Completion
  deriving DecidableEq

/-- `LargeValueNode`. -/
structure LargeValueNode where
  addr : Nat
  value : LargeValue
  deriving DecidableEq

end NomadFifo
