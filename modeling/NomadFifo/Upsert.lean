import NomadFifo.UpdateList
import NomadFifo.NodeAccess

/-!
# The write path of the Go binding

`DB.Upsert` copies its updates into C memory, calls `nomad_db_upsert`, and
turns the code that returns into a Go error.  It takes a `C.malloc` block for
the `NomadUpdate` array and one for each non-empty key and each non-empty
value, and two deferred functions free them: the key and value blocks, which
the loop collects in `cKeys` and `cValues`, then the array.  The loop returns
early with `ErrOutOfMemory` when a block is nil.  (The cgo `C.malloc` in fact
ends the program rather than return nil; the model keeps the tests the code
makes, so that it covers both.)  `Put` and `Delete` are `Upsert` of a single
update.

* `mallocLoop_spec`: for every run of the allocator, the loop stops exactly
  at its first nil block, and the blocks it collects are the ones it took.
* `DB.upsert_frees_every_block`: every call frees each block it took exactly
  once, on every path, and answers what `DB.upsertExpected` says: the trie's
  new root for the update list of `upsertUpdateList`, `ErrOutOfMemory`
  exactly when a block is nil, and the unknown code 255 when the trie throws.
-/

namespace NomadFifo

/-- `NomadDb`, modelled by whether its `db`, the `std::unique_ptr<mpt::Db>`,
is set. -/
structure NomadDb where
  db : Bool

/-- One allocation, read off the outcome it consumes. -/
theorem Heap.alloc_eq_take (heap : Heap) :
    heap.alloc =
      if (heap.outcomes.take 1).all id then
        (some heap.next, { heap with next := heap.next + 1, outcomes := heap.outcomes.drop 1 })
      else (none, { heap with outcomes := heap.outcomes.drop 1 }) := by
  rcases heap with ⟨next, freed, _ | ⟨_ | _, outcomes⟩⟩ <;> rfl

/-- Whether the first `a + b` allocations all succeed, in two parts. -/
theorem all_take_add (outcomes : List Bool) (a b : Nat) :
    (outcomes.take (a + b)).all id = ((outcomes.take a).all id && ((outcomes.drop a).take b).all id) := by
  rw [List.take_add, List.all_append]

section Trie

/- `trieUpsert` is `db->db->upsert(root, updates, version, ...)`, outside the
repository: the new root (a null `shared_ptr` is `none`), or `none` when the
call, or the `new NomadNode` after it, throws. -/
variable (trieUpsert :
  Option NomadFifo.Node → List Mpt.Update → UInt64 → Option (Option NomadFifo.Node))

/-- `nomad_db_upsert`: the code, and the handle it writes to `*new_root_out`
(`none` when it writes nothing).  The array comes with `updates_len`, the
number of its slots the call reads; `outNull` is a null `new_root_out`. -/
def nomadDbUpsert (db : Option NomadDb) (root : Option NomadNode)
    (updates : Option (List NomadUpdate)) (updatesLen : Nat) (version : UInt64) (outNull : Bool) :
    NomadError × Option NomadNode :=
  match db with
  | none => (.nomadErrNullPointer, none)
  | some db =>
      if !db.db || outNull then (.nomadErrNullPointer, none)
      else if 0 < updatesLen ∧ updates.isNone then (.nomadErrNullPointer, none)
      else
        match trieUpsert (root.bind NomadNode.node)
            (NomadUpdate.buildUpdateList ((updates.getD []).take updatesLen)) version with
        | none => (.nomadErrInternal, none)
        | some newRoot => (.nomadOk, some ⟨newRoot⟩)

namespace Monaddb

/-- `DB`, the Go handle: `ptr` is nil (`none`) or a `NomadDb`. -/
structure DB where
  ptr : Option NomadDb

/-- The `C.malloc` of one key or value in the loop of `Upsert`: nothing for
an empty field; otherwise a block, appended to `blocks` (`cKeys` or
`cValues`), or `none` when it is nil. -/
def mallocField (heap : Heap) (blocks : List Nat) (field : List UInt8) : Option (List Nat) × Heap :=
  if 0 < field.length then
    match heap.alloc with
    | (none, heap) => (none, heap)
    | (some block, heap) => (some (blocks ++ [block]), heap)
  else (some blocks, heap)

/-- The loop of `Upsert` on the C heap, from `cKeys`, `cValues` and the heap:
whether it ran to its end (`false` is its `return nil, ErrOutOfMemory`), and
`cKeys`, `cValues` and the heap when it stops.  What it writes into the array
is `fillUpdates`. -/
def mallocLoop : List Update → List Nat → List Nat → Heap → Bool × List Nat × List Nat × Heap
  | [], cKeys, cValues, heap => (true, cKeys, cValues, heap)
  | u :: rest, cKeys, cValues, heap =>
      match mallocField heap cKeys u.key with
      | (none, heap) => (false, cKeys, cValues, heap)
      | (some cKeys, heap) =>
          match mallocField heap cValues u.value with
          | (none, heap) => (false, cKeys, cValues, heap)
          | (some cValues, heap) => mallocLoop rest cKeys cValues heap

/-- A loop of the deferred function: `C.free` of each block of a list, in
order (a block in `cKeys` or `cValues` is never nil). -/
def freeBlocks (heap : Heap) (blocks : List Nat) : Heap :=
  blocks.foldl Heap.free heap

/-- `(*DB).Upsert`: the new root and the error it returns, with the C heap
after it.  `initial` is what `C.malloc` left in the slots of the array. -/
def DB.upsert (db : DB) (heap : Heap) (root : Option Node) (updates : List Update)
    (version : UInt64) (initial : Nat → NomadUpdate) : (Option Node × Option GoError) × Heap :=
  match db.ptr with
  | none => ((none, some .errNullPointer), heap)
  | some ptr =>
      if updates.length = 0 then ((root, none), heap)
      else
        match heap.alloc with
        | (none, heap) => ((none, some .errOutOfMemory), heap)
        | (some array, heap) =>
            let (finished, cKeys, cValues, heap) := mallocLoop updates [] [] heap
            let result : Option Node × Option GoError :=
              if finished then
                let (code, newRootPtr) := nomadDbUpsert trieUpsert (some ptr) (root.bind Node.ptr)
                  (some (fillUpdates initial updates)) updates.length version false
                match codeToError code.code with
                | some err => (none, some err)
                | none =>
                    match newRootPtr with
                    | none => (none, none)
                    | some newRoot => (some ⟨some newRoot⟩, none)
              else (none, some .errOutOfMemory)
            (result, (freeBlocks (freeBlocks heap cKeys) cValues).free array)

/-- `(*DB).Put`: `Upsert` of one put. -/
def DB.put (db : DB) (heap : Heap) (root : Option Node) (key value : List UInt8)
    (version : UInt64) (initial : Nat → NomadUpdate) : (Option Node × Option GoError) × Heap :=
  db.upsert trieUpsert heap root [⟨updatePut, key, value⟩] version initial

/-- `(*DB).Delete`: `Upsert` of one delete, whose value is nil. -/
def DB.delete (db : DB) (heap : Heap) (root : Option Node) (key : List UInt8)
    (version : UInt64) (initial : Nat → NomadUpdate) : (Option Node × Option GoError) × Heap :=
  db.upsert trieUpsert heap root [⟨updateDelete, key, []⟩] version initial

/-- Specification side: the blocks the loop takes for one field. -/
def fieldBlocks (field : List UInt8) : Nat :=
  if 0 < field.length then 1 else 0

/-- Specification side: the blocks the loop takes when none is nil. -/
def loopBlocks : List Update → Nat
  | [] => 0
  | u :: rest => fieldBlocks u.key + fieldBlocks u.value + loopBlocks rest

/-- Specification side: what `Upsert` should answer, given whether all its
blocks are non-nil (`allocates`): `ErrNullPointer` for a closed handle, the
root itself for no updates, `ErrOutOfMemory` when a block is nil, and
otherwise the answer of the trie to the update list of the updates, where
the code 255 of a throw is unknown to `codeToError`. -/
def DB.upsertExpected (db : DB) (root : Option Node) (updates : List Update) (version : UInt64)
    (initial : Nat → NomadUpdate) (allocates : Bool) : Option Node × Option GoError :=
  match db.ptr with
  | none => (none, some .errNullPointer)
  | some ptr =>
      if updates.length = 0 then (root, none)
      else if !allocates then (none, some .errOutOfMemory)
      else if !ptr.db then (none, some .errNullPointer)
      else
        match trieUpsert ((root.bind Node.ptr).bind NomadNode.node)
            (upsertUpdateList initial updates) version with
        | none => (none, some (.unknownCode 255))
        | some newRoot => (some ⟨some ⟨newRoot⟩⟩, none)

/-! ## The blocks of one call -/

theorem mallocField_eq (heap : Heap) (blocks : List Nat) (field : List UInt8) :
    mallocField heap blocks field =
      if (heap.outcomes.take (fieldBlocks field)).all id then
        (some (blocks ++ List.range' heap.next (fieldBlocks field)),
          { heap with next := heap.next + fieldBlocks field,
                      outcomes := heap.outcomes.drop (fieldBlocks field) })
      else (none, { heap with outcomes := heap.outcomes.drop (fieldBlocks field) }) := by
  unfold mallocField fieldBlocks
  by_cases nonempty : 0 < field.length
  · rcases heap with ⟨next, freed, _ | ⟨_ | _, outcomes⟩⟩ <;> simp [nonempty, Heap.alloc]
  · simp [nonempty]

theorem freeBlocks_eq (heap : Heap) (blocks : List Nat) :
    freeBlocks heap blocks = { heap with freed := heap.freed ++ blocks } := by
  induction blocks generalizing heap with
  | nil => simp [freeBlocks]
  | cons block blocks inductionHypothesis =>
      show freeBlocks (heap.free block) blocks = _
      simp [inductionHypothesis, Heap.free]

/-- The addresses from `start` up to `stop` in three parts, at `start + a`
and `start + a + b`. -/
theorem range'_split {start stop : Nat} (a b : Nat) (inside : start + a + b ≤ stop) :
    List.range' start (stop - start) =
      List.range' start a ++ List.range' (start + a) b ++
        List.range' (start + a + b) (stop - (start + a + b)) := by
  rw [show stop - start = stop - (start + a + b) + (b + a) by omega, ← List.range'_append,
    ← List.range'_append, Nat.one_mul, Nat.one_mul, show start + (b + a) = start + a + b by omega]

/-- The loop of `Upsert`, for every run of the allocator: it runs to its end
exactly when none of the blocks it needs is nil; it frees nothing; and the
blocks it adds to `cKeys` and `cValues` are, together, exactly the addresses
it took. -/
theorem mallocLoop_spec (updates : List Update) (cKeys cValues : List Nat) (heap : Heap) :
    ∃ keys values after, mallocLoop updates cKeys cValues heap =
        ((heap.outcomes.take (loopBlocks updates)).all id, cKeys ++ keys, cValues ++ values, after) ∧
      after.freed = heap.freed ∧ heap.next ≤ after.next ∧
      (keys ++ values).Perm (List.range' heap.next (after.next - heap.next)) := by
  induction updates generalizing cKeys cValues heap with
  | nil => exact ⟨[], [], heap, by simp [mallocLoop, loopBlocks], rfl, le_rfl, by simp⟩
  | cons u rest inductionHypothesis =>
      have blocks : loopBlocks (u :: rest) = fieldBlocks u.key + (fieldBlocks u.value + loopBlocks rest) :=
        Nat.add_assoc ..
      rw [mallocLoop, mallocField_eq, blocks, all_take_add]
      by_cases keyTaken : (heap.outcomes.take (fieldBlocks u.key)).all id
      case neg =>
        exact ⟨[], [], { heap with outcomes := heap.outcomes.drop (fieldBlocks u.key) },
          by simp [keyTaken], rfl, le_rfl, by simp⟩
      simp only [keyTaken, if_true]
      rw [mallocField_eq, all_take_add]
      by_cases valueTaken : ((heap.outcomes.drop (fieldBlocks u.key)).take (fieldBlocks u.value)).all id
      case neg =>
        exact ⟨List.range' heap.next (fieldBlocks u.key), [],
          { heap with next := heap.next + fieldBlocks u.key,
                      outcomes := (heap.outcomes.drop (fieldBlocks u.key)).drop (fieldBlocks u.value) },
          by simp [keyTaken, valueTaken], rfl, by simp, by simp⟩
      obtain ⟨keys, values, after, loop, freed, later, perm⟩ := inductionHypothesis
        (cKeys ++ List.range' heap.next (fieldBlocks u.key))
        (cValues ++ List.range' (heap.next + fieldBlocks u.key) (fieldBlocks u.value))
        { heap with next := heap.next + fieldBlocks u.key + fieldBlocks u.value,
                    outcomes := (heap.outcomes.drop (fieldBlocks u.key)).drop (fieldBlocks u.value) }
      refine ⟨List.range' heap.next (fieldBlocks u.key) ++ keys,
        List.range' (heap.next + fieldBlocks u.key) (fieldBlocks u.value) ++ values, after, ?_, freed,
        by simp only at later; omega, ?_⟩
      · simpa [keyTaken, valueTaken, List.drop_drop, Nat.add_comm] using loop
      · simp only at later perm
        rw [range'_split (fieldBlocks u.key) (fieldBlocks u.value) later]
        refine List.perm_iff_count.mpr fun address => ?_
        have same := perm.count_eq address
        simp only [List.count_append] at same ⊢
        omega

/-! ## `Upsert` -/

/-- `Upsert` for every handle, every run of the allocator and every answer of
the trie: it answers what `upsertExpected` says, where `allocates` is whether
the blocks the call needs are all non-nil; and on every path the blocks it
frees are exactly the blocks it took, each once. -/
theorem DB.upsert_frees_every_block (db : DB) (heap : Heap) (root : Option Node)
    (updates : List Update) (version : UInt64) (initial : Nat → NomadUpdate) :
    ∃ after released, db.upsert trieUpsert heap root updates version initial =
        (db.upsertExpected trieUpsert root updates version initial
          ((heap.outcomes.take (1 + loopBlocks updates)).all id), after) ∧
      after.freed = heap.freed ++ released ∧
      released.Perm (List.range' heap.next (after.next - heap.next)) := by
  rcases db with ⟨_ | ⟨⟨isSet⟩⟩⟩
  case none => exact ⟨heap, [], rfl, by simp, by simp⟩
  by_cases empty : updates.length = 0
  case pos => exact ⟨heap, [], by simp [DB.upsert, DB.upsertExpected, empty], by simp, by simp⟩
  rw [all_take_add]
  by_cases arrayTaken : (heap.outcomes.take 1).all id
  case neg =>
    exact ⟨{ heap with outcomes := heap.outcomes.drop 1 }, [],
      by simp [DB.upsert, DB.upsertExpected, empty, Heap.alloc_eq_take, arrayTaken], by simp, by simp⟩
  obtain ⟨keys, values, after, loop, freed, later, perm⟩ := mallocLoop_spec updates [] []
    { heap with next := heap.next + 1, outcomes := heap.outcomes.drop 1 }
  have whole : (fillUpdates initial updates).take updates.length = fillUpdates initial updates :=
    List.take_of_length_le (by simp [fillUpdates])
  refine ⟨{ after with freed := after.freed ++ (keys ++ values) ++ [heap.next] },
    keys ++ values ++ [heap.next], ?_, by simp [freed], ?_⟩
  · simp only [DB.upsert, DB.upsertExpected, empty, Heap.alloc_eq_take, arrayTaken, if_true, loop,
      freeBlocks_eq, Heap.free, List.nil_append, List.append_assoc, if_false, Bool.true_and]
    cases (List.take (loopBlocks updates) (List.drop 1 heap.outcomes)).all id with
    | false => rfl
    | true =>
        cases answer : trieUpsert ((root.bind Node.ptr).bind NomadNode.node)
            (NomadUpdate.buildUpdateList (fillUpdates initial updates)) version <;>
          cases isSet <;>
          simp [nomadDbUpsert, whole, answer, upsertUpdateList, NomadError.code, codeToError]
  · simp only at later perm ⊢
    rw [show after.next - heap.next = after.next - (heap.next + 1) + 1 by omega, List.range'_succ]
    exact (List.perm_append_singleton _ _).trans (perm.cons _)

end Monaddb

end Trie

end NomadFifo
