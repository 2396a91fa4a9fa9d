import NomadFifo.Records
import Mathlib.Data.List.OfFn
import Mathlib.Data.List.GetD

/-!
# The update lists of the two bindings

Both bindings hand the trie an `mpt::UpdateList` built by a function named
`build_update_list`: the C API of the Go binding (`nomad_mpt.h`) builds it
from the `NomadUpdate` array that `DB.Upsert` fills, and the Rust bridge
(`bridge.cpp`) from a tree of `RawUpdate` arrays.  Both walk their array
from the last slot to the first and push each update to the front of the
list.

* `pushFrontLoop_eq`: that loop leaves the updates in the order of their
  slots.
* The Rust bridge: each element of the list is built from its own slot, and
  a nested array becomes the nested list, at every depth.
* The Go binding: `DB.Upsert` writes a key or a value into its slot only
  when it is non-empty, and the other fields keep what `C.malloc` left
  there, so an empty key or an empty put value reaches `build_update_list`
  as whatever the memory held; `upsertUpdateList_of_filled`: with non-empty
  keys and put values, the trie receives exactly the updates asked for.
-/

namespace NomadFifo

/-- `mpt::Update` as the bindings fill it: the key as nibbles, the value
(`std::nullopt` is `none`), the version, and the nested list `next`. -/
structure Mpt.Update where
  key : List Nibble
  value : Option (List UInt8)
  version : Int
  next : List Mpt.Update
  deriving Inhabited

/-- The loop of both `build_update_list`s,
`for (size_t i = count; i > 0; --i)`: the update of slot `i - 1` goes to the
front of the list.  An update depends on its slot only, so the loop is given
the updates of the slots, built in advance. -/
def pushFrontLoop (updates : List Mpt.Update) : Nat → List Mpt.Update → List Mpt.Update
  | 0, list => list
  | i + 1, list => pushFrontLoop updates i (updates.getD i default :: list)

/-- After `i` turns the list holds the updates of the first `i` slots, in
slot order, in front of what it held. -/
theorem pushFrontLoop_eq (updates : List Mpt.Update) {i : Nat} (inRange : i ≤ updates.length)
    (list : List Mpt.Update) : pushFrontLoop updates i list = updates.take i ++ list := by
  induction i generalizing list with
  | zero => rfl
  | succ i inductionHypothesis =>
      rw [pushFrontLoop, inductionHypothesis (by omega), List.take_succ,
        List.getElem?_eq_getElem (by omega), List.getD_eq_getElem _ _ (by omega)]
      simp only [Option.toList_some, List.append_assoc, List.singleton_append]

theorem pushFrontLoop_all (updates : List Mpt.Update) :
    pushFrontLoop updates updates.length [] = updates := by
  rw [pushFrontLoop_eq updates le_rfl, List.take_length, List.append_nil]

/-! ## The Rust bridge -/

/-- `RawUpdate`, the record cxx generates for the Rust side.  Each pointer
comes with a length, and the pair is modelled by what it covers: the key
bytes, the value bytes (`none` when `value_ptr` is null), and the nested
array (`none` when `nested_ptr` is null; its length is `nested_len`). -/
structure RawUpdate where
  key : List UInt8
  value : Option (List UInt8)
  version : Int
  nested : Option (List RawUpdate)

namespace RawUpdate

mutual

/-- One slot of `build_update_list` in `bridge.cpp`. -/
def buildUpdate : RawUpdate → Mpt.Update
  | ⟨key, value, version, nested⟩ => ⟨bytesToNibbles key, value, version, buildNested nested⟩

/-- `update.next`: built when `nested_ptr` is non-null and `nested_len > 0`,
and otherwise left empty. -/
def buildNested : Option (List RawUpdate) → List Mpt.Update
  | some raws => if 0 < raws.length then pushFrontLoop (buildUpdates raws) raws.length [] else []
  | none => []

/-- The updates of the slots of an array. -/
def buildUpdates : List RawUpdate → List Mpt.Update
  | [] => []
  | raw :: raws => buildUpdate raw :: buildUpdates raws

end

/-- `build_update_list(raw_updates, count, storage)` of `bridge.cpp`. -/
def buildUpdateList (raws : List RawUpdate) : List Mpt.Update :=
  pushFrontLoop (buildUpdates raws) raws.length []

theorem buildUpdates_eq_map (raws : List RawUpdate) : buildUpdates raws = raws.map buildUpdate := by
  induction raws with
  | nil => rfl
  | cons raw raws inductionHypothesis => rw [buildUpdates, inductionHypothesis, List.map_cons]

theorem buildUpdateList_eq_map (raws : List RawUpdate) :
    buildUpdateList raws = raws.map buildUpdate := by
  have same : raws.length = (buildUpdates raws).length := by
    rw [buildUpdates_eq_map, List.length_map]
  rw [buildUpdateList, same, pushFrontLoop_all, buildUpdates_eq_map]

/-- Each element of the list is built from the slot of the same index: the
nibbles of its key, its value, its version, and the list built from its
nested array when `nested_ptr` is non-null and `nested_len > 0`; the list
has one element per slot. -/
theorem buildUpdateList_in_slot_order (raws : List RawUpdate) (i : Nat) :
    (buildUpdateList raws)[i]? = raws[i]?.map fun raw =>
      { key := bytesToNibbles raw.key, value := raw.value, version := raw.version,
        next := match raw.nested with
          | some nested => if 0 < nested.length then buildUpdateList nested else []
          | none => [] } := by
  rw [buildUpdateList_eq_map, List.getElem?_map]
  congr
  funext raw
  rcases raw with ⟨key, value, version, _ | nested⟩ <;> rfl

end RawUpdate

/-! ## The Go binding -/

/-- `NomadUpdateType`: `NOMAD_UPDATE_PUT`. -/
def nomadUpdatePut : UInt32 := 0

/-- `NOMAD_UPDATE_DELETE`. -/
def nomadUpdateDelete : UInt32 := 1

/-- `byte_string_view{ptr, len}`: the `len` bytes a read through `ptr`
gives. -/
def readBytes (memory : Nat → UInt8) (len : Nat) : List UInt8 :=
  List.ofFn fun i : Fin len => memory i

/-- `NomadUpdate` of `nomad_mpt.h`: the type, and the key and the value each
as a pointer and a length.  A pointer is modelled by the bytes that reads
through it give; the value pointer is also compared with null, so it is
`none` when null. -/
structure NomadUpdate where
  type : UInt32
  key : Nat → UInt8
  keyLen : Nat
  value : Option (Nat → UInt8)
  valueLen : Nat

namespace NomadUpdate

/-- One slot of `build_update_list` in `nomad_mpt.h`: the nibbles of the key,
the value of a put whose value pointer is non-null, and version 0. -/
def toUpdate (raw : NomadUpdate) : Mpt.Update :=
  { key := bytesToNibbles (readBytes raw.key raw.keyLen)
    value := if raw.type = nomadUpdatePut then raw.value.map fun value => readBytes value raw.valueLen
      else none
    version := 0
    next := [] }

/-- `build_update_list(updates, count, storage)` of `nomad_mpt.h`. -/
def buildUpdateList (raws : List NomadUpdate) : List Mpt.Update :=
  pushFrontLoop (raws.map toUpdate) raws.length []

theorem buildUpdateList_eq_map (raws : List NomadUpdate) :
    buildUpdateList raws = raws.map toUpdate := by
  have same : raws.length = (raws.map toUpdate).length := (List.length_map _ _).symm
  rw [buildUpdateList, same, pushFrontLoop_all]

end NomadUpdate

/-- `monaddb.Update`: the type, the key, and the value (nil for a delete). -/
structure Monaddb.Update where
  type : Int
  key : List UInt8
  value : List UInt8

/-- `UpdatePut` of the Go `UpdateType`, an `int`. -/
def updatePut : Int := 0

/-- `UpdateDelete`. -/
def updateDelete : Int := 1

/-- `C.NomadUpdateType(u.Type)`: cgo gives the C enumeration the type
`uint32`, and the conversion keeps the low 32 bits. -/
def cgoUpdateType (type : Int) : UInt32 :=
  UInt32.ofNat (type % 4294967296).toNat

/-- A fresh `C.malloc` block into which `copy` put `bytes`. -/
def mallocCopy (bytes : List UInt8) : Nat → UInt8 :=
  fun i => bytes.getD i 0

theorem readBytes_mallocCopy (bytes : List UInt8) :
    readBytes (mallocCopy bytes) bytes.length = bytes := by
  simp only [readBytes, mallocCopy, List.getD_eq_getElem _ _ (Fin.isLt _)]
  exact List.ofFn_getElem bytes

/-- One turn of the loop of `DB.Upsert`: the type is always written; the key
and the value only when non-empty, each as a fresh `C.malloc` copy. -/
def fillUpdate (slot : NomadUpdate) (u : Monaddb.Update) : NomadUpdate :=
  let slot := { slot with type := cgoUpdateType u.type }
  let slot := if 0 < u.key.length then { slot with key := mallocCopy u.key, keyLen := u.key.length }
    else slot
  if 0 < u.value.length then
    { slot with value := some (mallocCopy u.value), valueLen := u.value.length }
  else slot

/-- The array `DB.Upsert` passes to `nomad_db_upsert`, from what `C.malloc`
left in its slots. -/
def fillUpdates (initial : Nat → NomadUpdate) (updates : List Monaddb.Update) : List NomadUpdate :=
  updates.mapIdx fun i u => fillUpdate (initial i) u

/-- The list `nomad_db_upsert` hands to the trie for the updates of
`DB.Upsert`. -/
def upsertUpdateList (initial : Nat → NomadUpdate) (updates : List Monaddb.Update) :
    List Mpt.Update :=
  NomadUpdate.buildUpdateList (fillUpdates initial updates)

/-- Specification side: the update the trie should receive for a Go update:
its key, and its value for a put. -/
def Monaddb.Update.expected (u : Monaddb.Update) : Mpt.Update :=
  { key := bytesToNibbles u.key
    value := if u.type = updatePut then some u.value else none
    version := 0
    next := [] }

/-- A slot filled from a delete, or from a put of a non-empty value, under a
non-empty key, gives the update the Go caller asked for. -/
theorem fillUpdate_toUpdate (slot : NomadUpdate) {u : Monaddb.Update} (keyed : 0 < u.key.length)
    (kind : u.type = updatePut ∧ 0 < u.value.length ∨ u.type = updateDelete) :
    (fillUpdate slot u).toUpdate = u.expected := by
  rcases kind with ⟨put, valued⟩ | delete
  · simp [fillUpdate, NomadUpdate.toUpdate, Monaddb.Update.expected, keyed, valued, put,
      readBytes_mallocCopy, cgoUpdateType, updatePut, nomadUpdatePut]
  · by_cases valued : 0 < u.value.length <;>
      simp [fillUpdate, NomadUpdate.toUpdate, Monaddb.Update.expected, keyed, delete, valued,
        readBytes_mallocCopy, cgoUpdateType, updatePut, updateDelete, nomadUpdatePut]

/-- When every key is non-empty and every update is a delete or a put of a
non-empty value, the trie receives one update per input, in order, each with
the input's key and, for a put, its value. -/
theorem upsertUpdateList_of_filled (initial : Nat → NomadUpdate) (updates : List Monaddb.Update)
    (filled : ∀ u ∈ updates,
      0 < u.key.length ∧ (u.type = updatePut ∧ 0 < u.value.length ∨ u.type = updateDelete)) :
    upsertUpdateList initial updates = updates.map Monaddb.Update.expected := by
  apply List.ext_getElem?
  intro i
  rw [upsertUpdateList, NomadUpdate.buildUpdateList_eq_map, fillUpdates, List.getElem?_map,
    List.getElem?_mapIdx, List.getElem?_map]
  cases slot : updates[i]? with
  | none => rfl
  | some u =>
      obtain ⟨keyed, kind⟩ := filled u (List.getElem?_mem slot)
      exact congrArg some (fillUpdate_toUpdate (initial i) keyed kind)

/-- A put of `[5]` under the key `[1]` and a delete of the key `[2]` reach
the trie as asked, over slots where `C.malloc` left a stale key `7` and no
value. -/
theorem upsertUpdateList_put_then_delete :
    upsertUpdateList (fun _ => ⟨nomadUpdatePut, fun _ => 7, 1, none, 0⟩)
        [⟨updatePut, [1], [5]⟩, ⟨updateDelete, [2], []⟩] =
      [Monaddb.Update.expected ⟨updatePut, [1], [5]⟩, Monaddb.Update.expected ⟨updateDelete, [2], []⟩] :=
  upsertUpdateList_of_filled _ _ (by decide)

/-- Two puts, one of the empty value under the key `[1]` and one of `[5]`
under the empty key, into slots where `C.malloc` left a null value pointer
and a one-byte key `7`: the first reaches the trie as a delete, and the
second under the key `[7]`. -/
theorem upsert_empty_fields_read_garbage :
    (upsertUpdateList (fun _ => ⟨nomadUpdateDelete, fun _ => 7, 1, none, 0⟩)
        [⟨updatePut, [1], []⟩, ⟨updatePut, [], [5]⟩]).map (fun update => (update.key, update.value)) =
      [(bytesToNibbles [1], none), (bytesToNibbles [7], some [5])] :=
  rfl

end NomadFifo
