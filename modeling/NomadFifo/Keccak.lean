import Mathlib.Data.List.GetD
import Mathlib.Data.List.Basic

/-!
# keccak256

`keccak256` of `keccak.c` hashes a message with the sponge of Keccak-f[1600]
at a rate of 136 bytes.  It hands the whole message to `SHA3_absorb`, which
absorbs the full blocks and returns the number of bytes left over; it then
builds the last block itself (the bytes left over, the domain byte `0x01`,
zeros, and `0x80` or-ed into the last byte), absorbs it, and squeezes 32
bytes.

`SHA3_absorb` and `SHA3_squeeze` are OpenSSL assembly outside the
repository.  They are modelled by their contract: absorbing XORs each full
block into the state and then applies the permutation, and squeezing reads
the first bytes of the state.  The permutation `f` stays arbitrary.

* `finalBlock_eq`: the block `keccak256` builds is the bytes left over
  followed by the pad10*1 padding, including when a single padding byte
  carries both `0x01` and `0x80`;
* `keccak256_eq_reference`: for every permutation and every message, the
  digest is the Keccak sponge of the message.
-/

namespace NomadFifo

/-- The Keccak-f[1600] state `uint64_t A[5][5]`, its 25 lanes in memory
order. -/
abbrev KeccakState := Fin 25 → UInt64

/-- `__builtin_memset(A, 0, sizeof(A))`. -/
def KeccakState.zero : KeccakState := fun _ => 0

/-- Lane `i` of a block read as little-endian 64-bit words: byte `8 * i + k`
at bit `8 * k`, the bytes past the block being zero. -/
def blockLane (block : List UInt8) (i : Nat) : UInt64 :=
  (List.range 8).foldl
    (fun lane k => lane ||| (block.getD (8 * i + k) 0).toUInt64 <<< (8 * k).toUInt64) 0

/-- A block XORed into the state. -/
def xorBlock (state : KeccakState) (block : List UInt8) : KeccakState :=
  fun i => state i ^^^ blockLane block i

/-- Blocks absorbed in turn: each is XORed into the state, and the
permutation `f` is applied. -/
def absorbBlocks (f : KeccakState → KeccakState) (state : KeccakState)
    (blocks : List (List UInt8)) : KeccakState :=
  blocks.foldl (fun state block => f (xorBlock state block)) state

theorem absorbBlocks_append (f : KeccakState → KeccakState) (state : KeccakState)
    (first second : List (List UInt8)) :
    absorbBlocks f state (first ++ second) = absorbBlocks f (absorbBlocks f state first) second :=
  List.foldl_append _ _ _ _

/-- The first `count` blocks of `r` bytes of `input`. -/
def takeBlocks (r : Nat) : Nat → List UInt8 → List (List UInt8)
  | 0, _ => []
  | count + 1, input => input.take r :: takeBlocks r count (input.drop r)

/-- The state as bytes in memory order, each lane least significant byte
first. -/
def stateBytes (state : KeccakState) : List UInt8 :=
  (List.finRange 25).flatMap fun i =>
    (List.range 8).map fun k => (state i >>> (8 * k).toUInt64).toUInt8

/-- `SHA3_absorb(A, in, len, r)` by its contract: it absorbs the first
`len / r` blocks of `r` bytes of `in` and returns `len % r`. -/
def sha3Absorb (f : KeccakState → KeccakState) (state : KeccakState) (input : List UInt8)
    (r : Nat) : KeccakState × Nat :=
  (absorbBlocks f state (takeBlocks r (input.length / r) input), input.length % r)

/-- `SHA3_squeeze(A, out, len, r)` by its contract, for `len ≤ r`: the first
`len` bytes of the state. -/
def sha3Squeeze (state : KeccakState) (len : Nat) : List UInt8 :=
  (stateBytes state).take len

/-- `BLOCK_SIZE`, the rate of Keccak-256 in bytes. -/
def blockSize : Nat := (1600 - 2 * 256) / 8

/-- The block `keccak256` builds after the first absorb: the `rem` bytes
left over (`memcpy`, when `rem > 0`) and zeros after them (`memset`), then
`blk[rem] = 0x01` and `blk[BLOCK_SIZE - 1] |= 0x80`. -/
def finalBlock (input : List UInt8) (rem : Nat) : List UInt8 :=
  let blk := (if 0 < rem then input.drop (input.length - rem) else []) ++
    List.replicate (blockSize - rem) 0
  let blk := blk.set rem 0x01
  blk.set (blockSize - 1) (blk.getD (blockSize - 1) 0 ||| 0x80)

/-- `keccak256(in, len, out)`: the digest it writes to `out`. -/
def keccak256 (f : KeccakState → KeccakState) (input : List UInt8) : List UInt8 :=
  let (state, rem) := sha3Absorb f KeccakState.zero input blockSize
  let (state, _) := sha3Absorb f state (finalBlock input rem) blockSize
  sha3Squeeze state 32

/-! ## The reference sponge -/

/-- Specification side: pad10*1 after the domain bits `01` of Keccak, in
bytes, for a message of `len` bytes at a rate of `r` bytes: `0x01`, zeros,
and `0x80` up to the next multiple of `r`, or the single byte `0x81` when one
byte is all there is room for. -/
def keccakPadding (r len : Nat) : List UInt8 :=
  if r - len % r = 1 then [0x81] else 0x01 :: List.replicate (r - len % r - 2) 0 ++ [0x80]

/-- Specification side: the Keccak sponge at a rate of `r` bytes over the
permutation `f`: the padded message is cut into blocks of `r` bytes, which
are absorbed in turn from the zero state, and the digest is the first `d`
bytes of the state. -/
def keccakSponge (f : KeccakState → KeccakState) (r d : Nat) (message : List UInt8) :
    List UInt8 :=
  let padded := message ++ keccakPadding r message.length
  (stateBytes (absorbBlocks f KeccakState.zero (takeBlocks r (padded.length / r) padded))).take d

/-- Specification side: Keccak-256, the sponge at a rate of 136 bytes with a
32-byte digest. -/
def keccak256Reference (f : KeccakState → KeccakState) (message : List UInt8) : List UInt8 :=
  keccakSponge f 136 32 message

theorem keccakPadding_length (len : Nat) :
    (keccakPadding blockSize len).length = blockSize - len % blockSize := by
  have short := Nat.mod_lt len (show 0 < blockSize by decide)
  unfold keccakPadding
  split <;> simp <;> omega

/-! ## Blocks -/

/-- Cutting a message into blocks runs through a front of whole blocks
first. -/
theorem takeBlocks_append (r : Nat) {count : Nat} (more : Nat) {front : List UInt8}
    (back : List UInt8) (whole : front.length = count * r) :
    takeBlocks r (count + more) (front ++ back) = takeBlocks r count front ++ takeBlocks r more back := by
  induction count generalizing front with
  | zero =>
      obtain rfl : front = [] := List.length_eq_zero.mp (by simpa using whole)
      simp [takeBlocks]
  | succ count inductionHypothesis =>
      have room : r ≤ front.length := by rw [whole, Nat.succ_mul]; omega
      rw [Nat.succ_add, takeBlocks, takeBlocks, List.take_append_of_le_length room,
        List.drop_append_of_le_length room,
        inductionHypothesis (by rw [List.length_drop, whole, Nat.succ_mul]; omega)]
      rfl

theorem takeBlocks_one {r : Nat} {block : List UInt8} (sized : block.length = r) :
    takeBlocks r 1 block = [block] := by
  simp [takeBlocks, List.take_of_length_le sized.le]

/-! ## The last block -/

/-- What `blk[rem] = 0x01` and `blk[BLOCK_SIZE - 1] |= 0x80` write after the
`rem` bytes left over and the zeros: the pad10*1 padding, whose one byte is
`0x81` when `rem` is `BLOCK_SIZE - 1`. -/
theorem set_padding (tail : List UInt8) (short : tail.length < blockSize) :
    let blk := (tail ++ List.replicate (blockSize - tail.length) 0).set tail.length 0x01
    blk.set (blockSize - 1) (blk.getD (blockSize - 1) 0 ||| 0x80) =
      tail ++ if blockSize - tail.length = 1 then [0x81]
        else 0x01 :: List.replicate (blockSize - tail.length - 2) 0 ++ [0x80] := by
  obtain ⟨zeros, room⟩ : ∃ zeros, blockSize - tail.length = zeros + 1 := ⟨_, (Nat.succ_pred_eq_of_pos (by omega)).symm⟩
  simp only [room, List.replicate_succ, List.set_append_right _ _ (Nat.le_refl tail.length),
    Nat.sub_self, List.set_cons_zero]
  rcases zeros with _ | zeros
  · have last : blockSize - 1 = tail.length := by omega
    simp [last, List.getD_append_right]
    rfl
  · have last : blockSize - 1 = (tail ++ 0x01 :: List.replicate zeros 0).length := by simp; omega
    rw [List.replicate_succ', ← List.cons_append, ← List.append_assoc, last,
      List.getD_append_right _ _ _ _ (Nat.le_refl _), List.set_append_right _ _ (Nat.le_refl _)]
    simp
    rfl

/-- The block `keccak256` absorbs last: the bytes after the whole blocks,
then the padding. -/
theorem finalBlock_eq (input : List UInt8) :
    finalBlock input (input.length % blockSize) =
      input.drop (input.length / blockSize * blockSize) ++ keccakPadding blockSize input.length := by
  have split := Nat.div_add_mod' input.length blockSize
  have rest : (input.drop (input.length / blockSize * blockSize)).length =
      input.length % blockSize := by
    rw [List.length_drop]; omega
  have copied : (if 0 < input.length % blockSize then input.drop (input.length - input.length % blockSize)
      else []) = input.drop (input.length / blockSize * blockSize) := by
    split
    · congr 1; omega
    · rw [List.drop_eq_nil_of_le (by omega)]
  have padded := set_padding (input.drop (input.length / blockSize * blockSize))
    (rest ▸ Nat.mod_lt _ (by decide))
  rw [rest] at padded
  rw [finalBlock, copied, padded, keccakPadding]

/-! ## The digest -/

/-- The padded message cut into blocks: the whole blocks of the front, then
the last block. -/
theorem takeBlocks_padded {front tail padding : List UInt8} {count : Nat}
    (whole : front.length = count * blockSize) (last : (tail ++ padding).length = blockSize) :
    takeBlocks blockSize (count + 1) (front ++ tail ++ padding) =
      takeBlocks blockSize count front ++ [tail ++ padding] := by
  rw [List.append_assoc, takeBlocks_append _ 1 _ whole, takeBlocks_one last]

/-- For every permutation and every message, `keccak256` computes the
Keccak-256 sponge: the full blocks `SHA3_absorb` takes and the block built
from the bytes left over are the blocks of the padded message. -/
theorem keccak256_eq_reference (f : KeccakState → KeccakState) (input : List UInt8) :
    keccak256 f input = keccak256Reference f input := by
  have rate : blockSize = 136 := rfl
  have split := Nat.div_add_mod' input.length blockSize
  have short := Nat.mod_lt input.length (show 0 < blockSize by decide)
  have whole : (input.take (input.length / blockSize * blockSize)).length =
      input.length / blockSize * blockSize := by
    rw [List.length_take]; omega
  have lastBlock : (input.drop (input.length / blockSize * blockSize) ++
      keccakPadding blockSize input.length).length = blockSize := by
    rw [List.length_append, List.length_drop, keccakPadding_length]; omega
  have full : takeBlocks blockSize (input.length / blockSize) input =
      takeBlocks blockSize (input.length / blockSize)
        (input.take (input.length / blockSize * blockSize)) := by
    have := takeBlocks_append blockSize 0 (input.drop (input.length / blockSize * blockSize)) whole
    rwa [Nat.add_zero, List.take_append_drop, takeBlocks, List.append_nil] at this
  have blocks := takeBlocks_padded whole lastBlock
  rw [List.take_append_drop] at blocks
  have count : (input ++ keccakPadding blockSize input.length).length / blockSize =
      input.length / blockSize + 1 := by
    rw [List.length_append, keccakPadding_length, rate] at *
    omega
  simp only [keccak256, sha3Absorb, finalBlock_eq, lastBlock, Nat.div_self (show 0 < blockSize by decide),
    takeBlocks_one lastBlock, keccak256Reference, keccakSponge, ← rate, count, blocks, full, sha3Squeeze,
    absorbBlocks_append]

end NomadFifo
