import NomadFifo.Records
import Mathlib.Data.List.GetD

/-!
# Packing a traversal path into the 32-byte field

`FifoTraverseMachine::send_node` reports the path of every visited node in
the `merkle_hash` field of its completion.  It zeroes the field, then walks
the nibbles: an even index overwrites byte `i / 2` with the nibble shifted
left by four, an odd index ors the nibble into the same byte.  A path of
more than 64 nibbles is cut to its first 64, and byte 31 is then
overwritten with the truncation marker `0xFF`.

* `packNibbles_eq_standardPacking`: the loop computes the standard
  big-nibble-first packing of the nibbles it has read;
* `packPath_eq_standardPacking`: a path of at most 64 nibbles packs exactly
  and reads back unchanged, a longer one keeps the packing of its first 62
  nibbles in bytes 0 to 30;
* `packPath_last_byte_iff`: byte 31 is `0xFF` exactly for the long paths and
  for the 64-nibble paths that end in two `f` nibbles.
-/

namespace NomadFifo

/-- `unsigned char nibble = path_.get(i)`. -/
def nibbleByte (nibble : Nibble) : UInt8 :=
  UInt8.ofNat nibble.val

/-- One pass of the packing loop of `send_node`, at index `i`. -/
def packNibble (path : List Nibble) (hash : Fin 32 → UInt8) (i : Nat) :
    Fin 32 → UInt8 :=
  let nibble := nibbleByte (path.getD i 0)
  if i % 2 = 0 then Function.update hash (i / 2 : Nat) (nibble <<< 4)
  else Function.update hash (i / 2 : Nat) (hash (i / 2 : Nat) ||| (nibble &&& 0x0F))

/-- The loop `for (i = 0; i < count; ++i)` run on the zeroed field. -/
def packNibbles (path : List Nibble) (count : Nat) : Fin 32 → UInt8 :=
  (List.range count).foldl (packNibble path) fun _ => 0

/-- The `merkle_hash` field `send_node` writes for the path `path_`. -/
def packPath (path : List Nibble) : Fin 32 → UInt8 :=
  if (path.length + 1) / 2 ≤ 32 then packNibbles path path.length
  else Function.update (packNibbles path 64) 31 0xFF

/-- The standard big-nibble-first packing, in the words of the design:
byte `i` is `16 * p[2i] + p[2i+1]` whenever `2i + 1 < |p|`, byte
`(|p| - 1) / 2` is `16 * p[|p| - 1]` when `|p|` is odd, and every other byte
is zero. -/
def standardPacking (path : List Nibble) (index : Fin 32) : UInt8 :=
  if 2 * index.val + 1 < path.length then
    UInt8.ofNat (16 * (path.getD (2 * index) 0).val + (path.getD (2 * index + 1) 0).val)
  else if path.length % 2 = 1 ∧ index.val = (path.length - 1) / 2 then
    UInt8.ofNat (16 * (path.getD (path.length - 1) 0).val)
  else 0

/-! ## Byte arithmetic on nibbles -/

private theorem shift_nibbleByte (a : Nibble) :
    nibbleByte a <<< 4 = UInt8.ofNat (16 * a.val) := by
  revert a; decide

private theorem or_nibbleByte (a b : Nibble) :
    UInt8.ofNat (16 * a.val) ||| (nibbleByte b &&& 0x0F) =
      UInt8.ofNat (16 * a.val + b.val) := by
  revert a b; decide

private theorem ofNat_pair_toNat (a b : Nibble) :
    (UInt8.ofNat (16 * a.val + b.val)).toNat = 16 * a.val + b.val :=
  UInt8.toNat_ofNat_of_lt (by
    have := a.isLt; have := b.isLt; simp only [UInt8.size]; omega)

private theorem ofNat_high_toNat (a : Nibble) :
    (UInt8.ofNat (16 * a.val)).toNat = 16 * a.val :=
  UInt8.toNat_ofNat_of_lt (by have := a.isLt; simp only [UInt8.size]; omega)

private theorem ofNat_pair_eq_marker (a b : Nibble) :
    UInt8.ofNat (16 * a.val + b.val) = 0xFF ↔ a = 15 ∧ b = 15 := by
  revert a b; decide

private theorem ofNat_high_ne_marker (a : Nibble) :
    UInt8.ofNat (16 * a.val) ≠ 0xFF := by
  revert a; decide

/-! ## The packing loop -/

private theorem getD_take {path : List Nibble} {count i : Nat} (inside : i < count) :
    (path.take count).getD i 0 = path.getD i 0 := by
  simp [List.getElem?_take, inside]

private theorem packNibbles_succ (path : List Nibble) (count : Nat) :
    packNibbles path (count + 1) = packNibble path (packNibbles path count) count := by
  simp [packNibbles, List.range_succ, List.foldl_append]

/-- The byte a loop pass touches, and what it writes there. -/
theorem packNibble_apply (path : List Nibble) (hash : Fin 32 → UInt8) (i : Nat)
    (index : Fin 32) :
    packNibble path hash i index =
      if index.val = i / 2 % 32 then
        (if i % 2 = 0 then nibbleByte (path.getD i 0) <<< 4
         else hash index ||| (nibbleByte (path.getD i 0) &&& 0x0F))
      else hash index := by
  unfold packNibble
  by_cases here : index.val = i / 2 % 32
  · have same : index = ((i / 2 : Nat) : Fin 32) := Fin.ext (by simp [here])
    subst same
    split <;> simp [here]
  · have other : index ≠ ((i / 2 : Nat) : Fin 32) := fun same => here (by simp [same])
    split <;> simp [here, other]

/-- After `count` passes the field holds the standard packing of the first
`count` nibbles: an even pass starts a byte, the odd pass after it completes
the byte, and no pass touches a byte beyond. -/
theorem packNibbles_eq_standardPacking (path : List Nibble) (count : Nat)
    (within : count ≤ path.length) (short : count ≤ 64) :
    packNibbles path count = standardPacking (path.take count) := by
  induction count with
  | zero =>
      funext index
      simp [packNibbles, standardPacking]
  | succ count inductionHypothesis =>
      rw [packNibbles_succ, inductionHypothesis (by omega) (by omega)]
      funext index
      have lengthTake : (path.take count).length = count := by simp; omega
      have lengthTakeSucc : (path.take (count + 1)).length = count + 1 := by
        simp; omega
      have indexBound := index.isLt
      rw [packNibble_apply, Nat.mod_eq_of_lt (by omega : count / 2 < 32)]
      by_cases here : index.val = count / 2
      · by_cases parity : count % 2 = 0
        · -- an even pass starts byte `count / 2`
          simp only [here, parity, if_true, shift_nibbleByte, standardPacking,
            lengthTakeSucc]
          rw [if_neg (by omega), if_pos (by omega), getD_take (by omega)]
          congr 3
        · -- an odd pass completes the byte its predecessor started
          simp only [here, parity, if_true, if_false, standardPacking, lengthTake,
            lengthTakeSucc]
          have low : 2 * (count / 2) = count - 1 := by omega
          rw [if_neg (by omega), if_pos (by omega), if_pos (by omega), or_nibbleByte, low,
            Nat.sub_add_cancel (by omega : 1 ≤ count)]
          simp (disch := omega) only [getD_take]
      · -- any other byte lies wholly before the nibble written or wholly after it
        simp only [here, if_false, standardPacking, lengthTake, lengthTakeSucc]
        rcases (by omega : 2 * index.val + 1 < count ∨ count < 2 * index.val) with before | after
        · rw [if_pos before, if_pos (by omega), getD_take (by omega), getD_take (by omega),
            getD_take (by omega), getD_take (by omega)]
        · rw [if_neg (by omega), if_neg (by omega), if_neg (by omega), if_neg (by omega)]

theorem packPath_of_short (path : List Nibble) (short : path.length ≤ 64) :
    packPath path = standardPacking path := by
  rw [packPath, if_pos (by omega), packNibbles_eq_standardPacking path _ le_rfl short,
    List.take_length]

theorem packPath_of_long (path : List Nibble) (long : 64 < path.length)
    (index : Fin 32) :
    packPath path index =
      if index.val < 31 then standardPacking (path.take 62) index else 0xFF := by
  rw [packPath, if_neg (by omega), packNibbles_eq_standardPacking path 64 (by omega) le_rfl,
    Function.update_apply]
  have lengthTake62 : (path.take 62).length = 62 := by simp; omega
  have lengthTake64 : (path.take 64).length = 64 := by simp; omega
  by_cases last : index.val < 31
  · have notLast : index ≠ 31 := fun same => absurd (same ▸ last) (by decide)
    simp only [notLast, last, if_true, if_false, standardPacking, lengthTake62,
      lengthTake64]
    rw [if_pos (by omega), if_pos (by omega)]
    simp (disch := omega) only [getD_take]
  · have isLast : index = 31 :=
      Fin.ext (by have := index.isLt; show index.val = 31; omega)
    subst isLast
    rfl

/-! ## Reading a packed path back -/

private theorem getD_bytesToNibbles (bytes : List UInt8) (i : Nat)
    (within : i < 2 * bytes.length) :
    ((bytesToNibbles bytes).getD i 0).val =
      if i % 2 = 0 then (bytes.getD (i / 2) 0).toNat / 16
      else (bytes.getD (i / 2) 0).toNat % 16 := by
  induction bytes generalizing i with
  | nil => simp at within
  | cons byte rest inductionHypothesis =>
      match i with
      | 0 => simp [bytesToNibbles]
      | 1 => simp [bytesToNibbles]
      | i + 2 =>
          have step := inductionHypothesis i (by simp at within; omega)
          simp only [bytesToNibbles, List.getD_cons_succ] at step ⊢
          rw [step]
          have half : (i + 2) / 2 = i / 2 + 1 := by omega
          simp only [half, List.getD_cons_succ, Nat.add_mod_right]

private theorem getD_ofFn {n : Nat} (bytes : Fin n → UInt8) (i : Nat) (inside : i < n) :
    (List.ofFn bytes).getD i 0 = bytes ⟨i, inside⟩ := by
  simp [inside]

/-- The nibble at index `i` of the standard packing is `p[i]`. -/
private theorem standardPacking_nibble (path : List Nibble) (i : Nat)
    (inside : i < path.length) (within : i / 2 < 32) :
    (if i % 2 = 0 then (standardPacking path ⟨i / 2, within⟩).toNat / 16
      else (standardPacking path ⟨i / 2, within⟩).toNat % 16) = (path.getD i 0).val := by
  have current := (path.getD i 0).isLt
  unfold standardPacking
  simp only [Fin.val_mk]
  by_cases parity : i % 2 = 0
  · have even : 2 * (i / 2) = i := by omega
    have next := (path.getD (i + 1) 0).isLt
    rw [if_pos parity, even]
    by_cases pair : i + 1 < path.length
    · rw [if_pos pair, ofNat_pair_toNat]
      omega
    · have last : path.length - 1 = i := by omega
      rw [if_neg pair, if_pos (by omega), last, ofNat_high_toNat]
      omega
  · have odd : 2 * (i / 2) + 1 = i := by omega
    have previous := (path.getD (2 * (i / 2)) 0).isLt
    rw [if_neg parity, if_pos (by omega), odd, ofNat_pair_toNat]
    omega

/-- Reading the first `|p|` nibbles of the standard packing returns `p`. -/
theorem standardPacking_readBack (path : List Nibble) (short : path.length ≤ 64) :
    (bytesToNibbles (List.ofFn (standardPacking path))).take path.length = path := by
  apply List.ext_getElem?
  intro i
  rw [List.getElem?_take]
  split
  · rename_i inside
    have bound : i < 2 * (List.ofFn (standardPacking path)).length := by simp; omega
    rw [List.getElem?_eq_getElem (by rw [bytesToNibbles_length]; exact bound),
      List.getElem?_eq_getElem inside]
    refine congrArg some (Fin.ext ?_)
    rw [← List.getD_eq_getElem (d := 0), ← List.getD_eq_getElem (d := 0),
      getD_bytesToNibbles _ i bound, getD_ofFn _ _ (by omega)]
    exact standardPacking_nibble path i inside _
  · rename_i outside
    simp [List.getElem?_eq_none (by omega : path.length ≤ i)]

/-! ## What `send_node` reports -/

/-- A path of at most 64 nibbles is packed exactly and reads back unchanged;
of a longer path, bytes 0 to 30 hold the packing of its first 62 nibbles. -/
theorem packPath_eq_standardPacking (path : List Nibble) :
    (path.length ≤ 64 →
      packPath path = standardPacking path ∧
        (bytesToNibbles (List.ofFn (packPath path))).take path.length = path) ∧
    (64 < path.length → ∀ index : Fin 32, index.val < 31 →
      packPath path index = standardPacking (path.take 62) index) := by
  refine ⟨fun short => ?_, fun long index early => ?_⟩
  · rw [packPath_of_short path short]
    exact ⟨rfl, standardPacking_readBack path short⟩
  · rw [packPath_of_long path long, if_pos early]

theorem packPath_eq_standardPacking_three :
    packPath [1, 2, 3] = standardPacking [1, 2, 3] ∧
      (bytesToNibbles (List.ofFn (packPath [1, 2, 3]))).take 3 = [1, 2, 3] :=
  (packPath_eq_standardPacking [1, 2, 3]).1 (by decide)

/-- Byte 31 holds `0xFF` for every truncated path, and also for every
64-nibble path that ends in the nibbles `f`, `f`. -/
theorem packPath_last_byte_iff (path : List Nibble) :
    packPath path 31 = 0xFF ↔
      64 < path.length ∨
        (path.length = 64 ∧ path.getD 62 0 = 15 ∧ path.getD 63 0 = 15) := by
  by_cases long : 64 < path.length
  · simp only [packPath_of_long path long, long, true_or, iff_true]
    rfl
  · rw [packPath_of_short path (by omega)]
    simp only [long, false_or, standardPacking]
    show (if 63 < path.length then _ else _) = _ ↔ _
    by_cases full : 63 < path.length
    · rw [if_pos full, ofNat_pair_eq_marker]
      exact ⟨fun ends => ⟨by omega, ends⟩, fun full => full.2⟩
    · have notFull : path.length ≠ 64 := by omega
      simp only [full, notFull, if_false, false_and, iff_false]
      split_ifs
      · exact ofNat_high_ne_marker _
      · decide

/-- The marker is ambiguous: the untruncated 64-nibble path of sixteen-fold
`ff` bytes packs with byte 31 equal to `0xFF`. -/
theorem packPath_marker_without_truncation :
    packPath (List.replicate 64 15) 31 = 0xFF ∧
      ¬ 64 < (List.replicate 64 (15 : Nibble)).length :=
  ⟨(packPath_last_byte_iff _).2 (Or.inr ⟨by simp, by simp, by simp⟩), by simp⟩

end NomadFifo
