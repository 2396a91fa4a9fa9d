import NomadFifo.Steps
import NomadFifo.Keccak
import Mathlib.Data.List.OfFn

/-!
# Reading a node through the Go binding

A node the trie hands back reaches a Go caller through the C API of
`nomad_mpt.h`, which copies a value into a buffer it allocates with `malloc`
and the caller frees with `nomad_bytes_free`; the Go methods turn its error
codes into Go errors, copy the buffer into Go memory and free it.  A node is
hashed by the rule of `nomad_node_get_hash`: `keccak256` of what
`MerkleCompute` writes when that is shorter than 32 bytes, its first 32 bytes
otherwise (`merkleHash`).

* `Monaddb.Node.value_copies_and_frees`: for every handle and whichever way
  `malloc` goes, `Node.Value` returns the node's value when it is not empty,
  `nil` without an error when there is none or it is empty, and
  `ErrOutOfMemory` when the copy cannot be allocated; every buffer the call
  allocates is freed before it returns.
* `Monaddb.Node.hashHex_reads_back`: the text of `HashHex` is empty when
  `Hash` fails, and otherwise `0x` and two lowercase digits per byte, which
  read back as the bytes `Hash` returns.
-/

namespace NomadFifo

/-! ## The C API -/

/-- `NomadError`. -/
inductive NomadError where
  | nomadOk
  | nomadErrNullPointer
  | nomadErrInvalidArgument
  | nomadErrNotFound
  | nomadErrIo
  | nomadErrVersionOutOfRange
  | nomadErrNotSupported
  | nomadErrOutOfMemory
  | nomadErrInternal
  deriving DecidableEq

/-- The value of each enumerator of `NomadError`. -/
def NomadError.code : NomadError → Int
  | .nomadOk => 0
  | .nomadErrNullPointer => 1
  | .nomadErrInvalidArgument => 2
  | .nomadErrNotFound => 3
  | .nomadErrIo => 4
  | .nomadErrVersionOutOfRange => 5
  | .nomadErrNotSupported => 6
  | .nomadErrOutOfMemory => 7
  | .nomadErrInternal => 255

/-- `NomadNode`: the `std::shared_ptr<mpt::Node>` a handle holds, null or a
node. -/
structure NomadNode where
  node : Option Node
  deriving DecidableEq

/-- `NomadBytes`: `data`, the address of a buffer with the bytes in it
(`none` is `nullptr`), and `len`. -/
structure NomadBytes where
  data : Option (Nat × List UInt8)
  len : Nat
  deriving DecidableEq

/-- `NomadBytes{nullptr, 0}`, which is also the zero value Go declares. -/
def NomadBytes.empty : NomadBytes :=
  ⟨none, 0⟩

/-- `make_bytes`: nothing for an empty value; otherwise a buffer from
`malloc`, which may fail, holding a copy of the value. -/
def makeBytes (heap : Heap) (data : List UInt8) : NomadBytes × Heap :=
  if data.isEmpty then (.empty, heap)
  else
    match heap.alloc with
    | (none, heap) => (.empty, heap)
    | (some addr, heap) => (⟨some (addr, data), data.length⟩, heap)

/-- `nomad_node_get_value`: the error code, and what it writes to
`*value_out` (`none` when it writes nothing); `outNull` is a null
`value_out`. -/
def nomadNodeGetValue (heap : Heap) (node : Option NomadNode) (outNull : Bool) :
    NomadError × Option NomadBytes × Heap :=
  match node with
  | none => (.nomadErrNullPointer, none, heap)
  | some handle =>
      if outNull then (.nomadErrNullPointer, none, heap)
      else
        match handle.node.bind Node.value with
        | none => (.nomadErrNotFound, none, heap)
        | some value =>
            let (bytes, heap) := makeBytes heap value
            (if bytes.data.isNone && !value.isEmpty then .nomadErrOutOfMemory else .nomadOk,
              some bytes, heap)

/-- `nomad_bytes_free`: with a structure that holds a buffer, the buffer is
freed and the structure cleared. -/
def nomadBytesFree (heap : Heap) : Option NomadBytes → Option NomadBytes × Heap
  | some ⟨some (addr, _), _⟩ => (some .empty, heap.free addr)
  | bytes => (bytes, heap)

section Hashing

/- `f` is the Keccak-f[1600] permutation, and `compute` is
`EthMerkleCompute::compute`, outside the repository: the bytes it writes into
the 532-byte buffer (the node's encoding, or already its hash when the
encoding is long), or `none` when it throws. -/
variable (f : KeccakState → KeccakState) (compute : Node → Option (List UInt8))

/-- What `nomad_node_get_hash` and `node_compute_root_hash` write from the
bytes `compute` left in the buffer: `keccak256` of them when they are fewer
than 32, the first 32 of them otherwise. -/
def merkleHash (buffer : List UInt8) : List UInt8 :=
  if buffer.length < 32 then keccak256 f buffer else buffer.take 32

/-- `nomad_node_get_hash`: the error code, and the 32 bytes it writes to
`hash_out` (`none` when it writes nothing); `outNull` is a null `hash_out`.
An exception of `compute` is caught as `NOMAD_ERR_INTERNAL`. -/
def nomadNodeGetHash (node : Option NomadNode) (outNull : Bool) :
    NomadError × Option (Fin 32 → UInt8) :=
  match node with
  | none => (.nomadErrNullPointer, none)
  | some handle =>
      if outNull then (.nomadErrNullPointer, none)
      else
        match handle.node with
        | none => (.nomadErrNotFound, none)
        | some node =>
            match compute node with
            | none => (.nomadErrInternal, none)
            | some buffer => (.nomadOk, some (copyBytes (merkleHash f buffer)))

end Hashing

/-! ## The Go binding -/

namespace Monaddb

/-- The errors the Go package returns: its eight standard errors, and the one
`fmt.Errorf` builds for any other code. -/
inductive GoError where
  | errNullPointer
  | errInvalidArgument
  | errNotFound
  | errIo
  | errVersionOutOfRange
  | errNotSupported
  | errOutOfMemory
  | errInternal
  | unknownCode (code : Int)
  deriving DecidableEq

/-- The text of each error. -/
def GoError.message : GoError → String
  | .errNullPointer => "monaddb: null pointer"
  | .errInvalidArgument => "monaddb: invalid argument"
  | .errNotFound => "monaddb: key not found"
  | .errIo => "monaddb: I/O error"
  | .errVersionOutOfRange => "monaddb: version out of range"
  | .errNotSupported => "monaddb: operation not supported"
  | .errOutOfMemory => "monaddb: out of memory"
  | .errInternal => "monaddb: internal error"
  | .unknownCode code => "monaddb: unknown error code " ++ toString code

/-- `codeToError`: `nil` for `ErrCodeOK`, the standard error of each of the
codes 1 to 7, and an `fmt.Errorf` error for any other code; the switch has
no case for `ErrCodeInternal`. -/
def codeToError (code : Int) : Option GoError :=
  if code = 0 then none
  else if code = 1 then some .errNullPointer
  else if code = 2 then some .errInvalidArgument
  else if code = 3 then some .errNotFound
  else if code = 4 then some .errIo
  else if code = 5 then some .errVersionOutOfRange
  else if code = 6 then some .errNotSupported
  else if code = 7 then some .errOutOfMemory
  else some (.unknownCode code)

/-- `Node`, the Go handle: `ptr` is nil (`none`) or a C handle. -/
structure Node where
  ptr : Option NomadNode

/-- `C.GoBytes(unsafe.Pointer(bytes.data), C.int(bytes.len))`: `C.int` keeps
the low 32 bits of the length as a signed number, and `C.GoBytes` panics
(`none`) on a negative one. -/
def goBytes (contents : List UInt8) (len : Nat) : Option (List UInt8) :=
  if len % 2 ^ 32 < 2 ^ 31 then some (contents.take (len % 2 ^ 32)) else none

/-- `(*Node).Value`: the value and the error it returns, with the C heap
after it; `none` when it panics. -/
def Node.value (heap : Heap) (node : Node) :
    Option ((Option (List UInt8) × Option GoError) × Heap) :=
  match node.ptr with
  | none => some ((none, some .errNullPointer), heap)
  | some ptr =>
      let (code, written, heap) := nomadNodeGetValue heap (some ptr) false
      let bytes := written.getD .empty
      match codeToError code.code with
      | some err => some ((none, if err = .errNotFound then none else some err), heap)
      | none =>
          match bytes.data with
          | none => some ((none, none), heap)
          | some (_, contents) =>
              if bytes.len = 0 then some ((none, none), heap)
              else (goBytes contents bytes.len).map fun result =>
                ((some result, none), (nomadBytesFree heap (some bytes)).2)

/-- Specification side: what `Value` is meant to return for a handle, when
the `malloc` of the copy succeeds (`allocates`) or fails: the node's value,
`nil` when it has none or an empty one, or `ErrOutOfMemory`. -/
def Node.valueExpected (node : Node) (allocates : Bool) : Option (List UInt8) × Option GoError :=
  match node.ptr with
  | none => (none, some .errNullPointer)
  | some ptr =>
      match ptr.node.bind NomadFifo.Node.value with
      | none => (none, none)
      | some value =>
          if value.isEmpty then (none, none)
          else if allocates then (some value, none) else (none, some .errOutOfMemory)

/-- `Node.Value` across the C API: for every handle and whichever way `malloc`
goes, it returns what `valueExpected` says, and every buffer the call
allocates is freed before it returns (the addresses taken from `heap.next`
on are exactly those added to the freed list).  A value of `2^31` bytes or
more would not fit the `C.int` length. -/
theorem Node.value_copies_and_frees (heap : Heap) (node : Node)
    (fits : ∀ ptr value, node.ptr = some ptr → ptr.node.bind NomadFifo.Node.value = some value →
      value.length < 2 ^ 31) :
    ∃ after, node.value heap = some (node.valueExpected heap.alloc.1.isSome, after) ∧
      after.freed = heap.freed ++ List.range' heap.next (after.next - heap.next) := by
  rcases node with ⟨_ | ptr⟩
  · exact ⟨heap, rfl, by simp⟩
  cases stored : ptr.node.bind NomadFifo.Node.value with
  | none =>
      exact ⟨heap, by simp [Node.value, Node.valueExpected, nomadNodeGetValue, stored,
        NomadError.code, codeToError], by simp⟩
  | some value =>
      by_cases empty : value.isEmpty
      · exact ⟨heap, by simp [Node.value, Node.valueExpected, nomadNodeGetValue, stored, makeBytes,
          empty, NomadError.code, codeToError, NomadBytes.empty], by simp⟩
      have small : value.length < 2147483648 := fits ptr value rfl stored
      have short : value.length < 4294967296 := by omega
      rcases Heap.alloc_cases heap with failed | allocated
      · exact ⟨⟨heap.next, heap.freed, heap.outcomes.tail⟩, by simp [Node.value,
          Node.valueExpected, nomadNodeGetValue, stored, makeBytes, empty, failed, NomadError.code,
          codeToError, NomadBytes.empty], by simp⟩
      · exact ⟨Heap.free ⟨heap.next + 1, heap.freed, heap.outcomes.tail⟩ heap.next, by simp [Node.value,
          Node.valueExpected, nomadNodeGetValue, stored, makeBytes, empty, allocated,
          NomadError.code, codeToError, goBytes, Nat.mod_eq_of_lt short, small, nomadBytesFree,
          List.isEmpty_iff.not.mp empty], by simp [Heap.free]⟩

/-- A node holding the value `[7]`, read with `malloc` succeeding: the value
comes back, and the one buffer allocated is freed. -/
theorem Node.value_of_seven :
    ∃ after, (Node.mk (some ⟨some ⟨some [7], [], []⟩⟩)).value ⟨0, [], []⟩ =
        some ((some [7], none), after) ∧ after.freed = List.range' 0 after.next :=
  Node.value_copies_and_frees ⟨0, [], []⟩ _ (by rintro _ _ ⟨⟩ ⟨⟩; decide)

section Hashing

variable (f : KeccakState → KeccakState) (compute : NomadFifo.Node → Option (List UInt8))

/-- `(*Node).Hash`: the array `hash`, zero unless the C side wrote it, and
the error. -/
def Node.hash (node : Node) : (Fin 32 → UInt8) × Option GoError :=
  match node.ptr with
  | none => (fun _ => 0, some .errNullPointer)
  | some ptr =>
      let (code, written) := nomadNodeGetHash f compute (some ptr) false
      (written.getD fun _ => 0, codeToError code.code)

/-- `hexChars`. -/
def hexChars : List UInt8 :=
  "0123456789abcdef".toList.map fun c => c.toNat.toUInt8

/-- The loop of `HashHex`, `for i, b := range hash`: the digits
`hexChars[b>>4]` and `hexChars[b&0x0f]` of byte `i` written at `2+i*2` and
`3+i*2`. -/
def hexLoop (result : List UInt8) : Nat → List UInt8 → List UInt8
  | _, [] => result
  | i, b :: rest =>
      hexLoop ((result.set (2 + i * 2) (hexChars.getD (b >>> 4).toNat 0)).set (3 + i * 2)
        (hexChars.getD (b &&& 0x0f).toNat 0)) (i + 1) rest

/-- `(*Node).HashHex`: the bytes of the string, `make([]byte, 66)` with
`'0'` and `'x'` in front and the digits after them, and the error of
`Hash`, with an empty string. -/
def Node.hashHex (node : Node) : List UInt8 × Option GoError :=
  match node.hash f compute with
  | (_, some err) => ([], some err)
  | (hash, none) =>
      (hexLoop (((List.replicate 66 0).set 0 '0'.toNat.toUInt8).set 1 'x'.toNat.toUInt8) 0
        (List.ofFn hash), none)

end Hashing

/-! ### The text of `HashHex` -/

/-- The two digits `HashHex` writes for a byte. -/
def hexPair (b : UInt8) : List UInt8 :=
  [hexChars.getD (b >>> 4).toNat 0, hexChars.getD (b &&& 0x0f).toNat 0]

/-- Specification side: the value of a lowercase hexadecimal digit. -/
def hexDigit (c : UInt8) : Option Nat :=
  if 48 ≤ c.toNat ∧ c.toNat < 58 then some (c.toNat - 48)
  else if 97 ≤ c.toNat ∧ c.toNat < 103 then some (c.toNat - 87)
  else none

/-- Specification side: the bytes a text of digit pairs stands for, high
half first. -/
def readHexPairs : List UInt8 → Option (List UInt8)
  | high :: low :: rest =>
      match hexDigit high, hexDigit low, readHexPairs rest with
      | some h, some l, some bytes => some ((16 * h + l).toUInt8 :: bytes)
      | _, _, _ => none
  | [] => some []
  | [_] => none

/-- Specification side: a hash read back from its text: `0x` (the bytes 48
and 120), then the digit pairs. -/
def readHashHex : List UInt8 → Option (List UInt8)
  | zero :: ex :: digits => if zero = 48 ∧ ex = 120 then readHexPairs digits else none
  | _ => none

/-- The loop writes the digits of each byte behind those already written,
over the zeros `make` left. -/
theorem hexLoop_eq : ∀ (bytes front : List UInt8) (i : Nat), front.length = 2 + i * 2 →
    hexLoop (front ++ List.replicate (2 * bytes.length) 0) i bytes = front ++ bytes.flatMap hexPair
  | [], front, _, _ => by simp [hexLoop]
  | b :: rest, front, i, sized => by
      have written : ((front ++ List.replicate (2 * (rest.length + 1)) 0).set (2 + i * 2)
          (hexChars.getD (b >>> 4).toNat 0)).set (3 + i * 2) (hexChars.getD (b &&& 0x0f).toNat 0) =
          (front ++ hexPair b) ++ List.replicate (2 * rest.length) 0 := by
        rw [show 2 * (rest.length + 1) = 2 * rest.length + 1 + 1 by omega, List.replicate_succ,
          List.replicate_succ, List.set_append_right _ _ (by omega),
          List.set_append_right _ _ (by omega)]
        simp [sized, hexPair, show 3 + i * 2 - (2 + i * 2) = 1 by omega]
      rw [List.length_cons, hexLoop, written,
        hexLoop_eq rest _ (i + 1) (by simp [hexPair, sized]; omega)]
      simp [List.flatMap_cons]

/-- Each of the sixteen digits reads back as its value. -/
theorem hexDigit_hexChars : ∀ n < 16, hexDigit (hexChars.getD n 0) = some n := by
  decide

theorem shiftRight_four_toNat (b : UInt8) : (b >>> 4).toNat = b.toNat / 16 := by
  show (b.toBitVec >>> (UInt8.mod 4 8).toBitVec).toNat = _
  simp [BitVec.toNat_ushiftRight, Nat.shiftRight_eq_div_pow]
  rfl

theorem and_fifteen_toNat (b : UInt8) : (b &&& 0x0f).toNat = b.toNat % 16 := by
  rw [UInt8.and_toNat]
  exact Nat.and_pow_two_sub_one_eq_mod _ 4

theorem toNat_toUInt8 (b : UInt8) : b.toNat.toUInt8 = b :=
  UInt8.eq_of_toBitVec_eq (by simp [Nat.toUInt8, UInt8.ofNat, UInt8.toNat])

theorem length_flatMap_hexPair (bytes : List UInt8) :
    (bytes.flatMap hexPair).length = 2 * bytes.length := by
  induction bytes with
  | nil => rfl
  | cons b rest inductionHypothesis =>
      rw [List.flatMap_cons, List.length_append, inductionHypothesis]
      simp [hexPair]
      omega

/-- Reading the digits of a byte string gives it back. -/
theorem readHexPairs_flatMap : ∀ bytes : List UInt8, readHexPairs (bytes.flatMap hexPair) = some bytes
  | [] => rfl
  | b :: rest => by
      have bound : b.toNat < 256 := b.toNat_lt_size
      rw [List.flatMap_cons, hexPair, List.cons_append, List.cons_append, List.nil_append,
        readHexPairs, shiftRight_four_toNat, and_fifteen_toNat, hexDigit_hexChars _ (by omega),
        hexDigit_hexChars _ (by omega), readHexPairs_flatMap rest]
      simp only [Nat.div_add_mod, toNat_toUInt8]

section Hashing

variable (f : KeccakState → KeccakState) (compute : NomadFifo.Node → Option (List UInt8))

/-- `HashHex` and `Hash` agree: the error of `HashHex` is that of `Hash`;
with one its text is empty, and without one it is 66 bytes, `0x` and two
lowercase digits per byte, which read back as the 32 bytes `Hash`
returns. -/
theorem Node.hashHex_reads_back (node : Node) :
    (node.hashHex f compute).2 = (node.hash f compute).2 ∧
      ((node.hash f compute).2 ≠ none → (node.hashHex f compute).1 = []) ∧
      ((node.hash f compute).2 = none →
        (node.hashHex f compute).1.length = 66 ∧
          readHashHex (node.hashHex f compute).1 = some (List.ofFn (node.hash f compute).1)) := by
  unfold Node.hashHex
  rcases node.hash f compute with ⟨hash, _ | err⟩
  · have start : ((List.replicate 66 0).set 0 '0'.toNat.toUInt8).set 1 'x'.toNat.toUInt8 =
        [48, 120] ++ List.replicate (2 * (List.ofFn hash).length) 0 := by
      rw [List.length_ofFn]; decide
    have text := hexLoop_eq (List.ofFn hash) [48, 120] 0 rfl
    rw [← start] at text
    dsimp only
    rw [text]
    refine ⟨rfl, fun failed => absurd rfl failed, fun _ => ⟨?_, ?_⟩⟩
    · rw [List.length_append, length_flatMap_hexPair, List.length_ofFn]; rfl
    · rw [List.cons_append, List.singleton_append, readHashHex, if_pos ⟨rfl, rfl⟩,
        readHexPairs_flatMap]
  · exact ⟨rfl, fun _ => rfl, nofun⟩

/-- A node whose encoding is 32 bytes of 7: its text reads back as them. -/
theorem Node.hashHex_reads_back_sevens :
    (Node.hashHex id (fun _ => some (List.replicate 32 7)) ⟨some ⟨some ⟨none, [], []⟩⟩⟩).2 =
        (Node.hash id (fun _ => some (List.replicate 32 7)) ⟨some ⟨some ⟨none, [], []⟩⟩⟩).2 ∧
      ((Node.hash id (fun _ => some (List.replicate 32 7)) ⟨some ⟨some ⟨none, [], []⟩⟩⟩).2 ≠ none →
        (Node.hashHex id (fun _ => some (List.replicate 32 7)) ⟨some ⟨some ⟨none, [], []⟩⟩⟩).1 = []) ∧
      ((Node.hash id (fun _ => some (List.replicate 32 7)) ⟨some ⟨some ⟨none, [], []⟩⟩⟩).2 = none →
        (Node.hashHex id (fun _ => some (List.replicate 32 7)) ⟨some ⟨some ⟨none, [], []⟩⟩⟩).1.length =
            66 ∧
          readHashHex (Node.hashHex id (fun _ => some (List.replicate 32 7))
              ⟨some ⟨some ⟨none, [], []⟩⟩⟩).1 =
            some (List.ofFn
              (Node.hash id (fun _ => some (List.replicate 32 7)) ⟨some ⟨some ⟨none, [], []⟩⟩⟩).1)) :=
  Node.hashHex_reads_back id _ _

end Hashing

end Monaddb

end NomadFifo
