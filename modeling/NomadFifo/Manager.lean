import NomadFifo.Processors

/-!
# The FIFO manager

`FifoManager` owns four ck_fifo MPMC queues, the fiber pool and the running
flag.  This module gives its state and its sequential methods.

* Memory is a `Heap`: each allocation (`aligned_malloc`,
  `ck_fifo_mpmc_wrapper_alloc_entry`, the `malloc` of a queue wrapper) takes
  a fresh address, or returns null when the run's list of allocation
  outcomes says so; `std::free` records the address as released.
* A queue is a `Fifo`: the Michael-Scott queue of ck keeps a stub entry at
  its head, each dequeue hands the old head back as garbage, and the entry
  of the dequeued value becomes the new head.  A queue whose creation failed
  is `none`; the wrapper functions then return without doing anything.
* The state also records its history: the request nodes callers submitted
  and the ones fibers dequeued, every record ever enqueued on the three
  result queues, and the addresses that no owner holds any more (handed to a
  queue that does not exist, or left in a queue when it was destroyed).  No
  method reads these fields.
-/

namespace NomadFifo

/-- The allocator: the next fresh address, the addresses released so far,
and the outcomes of the allocations still to come (`false` is a null
pointer; once the list runs out every allocation succeeds). -/
structure Heap where
  next : Nat
  freed : List Nat
  outcomes : List Bool
  deriving DecidableEq

namespace Heap

/-- One allocation. -/
def alloc (heap : Heap) : Option Nat × Heap :=
  if heap.outcomes.head? = some false then (none, { heap with outcomes := heap.outcomes.tail })
  else (some heap.next, { heap with next := heap.next + 1, outcomes := heap.outcomes.tail })

/-- `std::free`. -/
def free (heap : Heap) (addr : Nat) : Heap :=
  { heap with freed := heap.freed ++ [addr] }

/-- No allocation from here on returns null. -/
def NoFailure (heap : Heap) : Prop :=
  false ∉ heap.outcomes

theorem alloc_of_noFailure {heap : Heap} (noFailure : heap.NoFailure) :
    heap.alloc = (some heap.next, { heap with next := heap.next + 1, outcomes := heap.outcomes.tail }) := by
  have first : heap.outcomes.head? ≠ some false := fun head =>
    noFailure (List.mem_of_mem_head? head)
  simp [alloc, first]

theorem noFailure_tail {heap : Heap} (noFailure : heap.NoFailure) :
    false ∉ heap.outcomes.tail :=
  fun member => noFailure (List.mem_of_mem_tail member)

end Heap

/-- A ck_fifo MPMC queue with its wrapper: the wrapper's address, the head
entry (the stub), and the entries after it with their values, oldest
first. -/
structure Fifo (α : Type) where
  wrapper : Nat
  stub : Nat
  items : List (Nat × α)
  deriving DecidableEq

namespace Fifo

/-- `ck_fifo_mpmc_enqueue`. -/
def enqueue {α : Type} (fifo : Fifo α) (entry : Nat) (value : α) : Fifo α :=
  { fifo with items := fifo.items ++ [(entry, value)] }

/-- `ck_fifo_mpmc_trydequeue`: the first value, the old head as garbage, and
the queue with the dequeued entry as its new head. -/
def dequeue {α : Type} (fifo : Fifo α) : Option (α × Nat × Fifo α) :=
  match fifo.items with
  | [] => none
  | (entry, value) :: rest => some (value, fifo.stub, { fifo with stub := entry, items := rest })

end Fifo

/-- The control point of a worker fiber in `worker_fiber`. -/
inductive Fiber where
  /-- At `while (running_.load(...))`. -/
  | loop
  /-- The flag was set: about to dequeue. -/
  | dequeuing
  /-- Inside `db_.find` of `process_find`. -/
  | finding (node : RequestNode)
  /-- Inside `db_.find` of `process_traverse`. -/
  | resolving (node : RequestNode)
  /-- Inside `db_.traverse`, with the machine of the walk. -/
  | walking (node : RequestNode) (machine : FifoTraverseMachine)
  /-- Returned from `worker_fiber`. -/
  | exited
  deriving DecidableEq

/-- The control point of the thread that calls `start` and `stop`. -/
inductive Control where
  | idle
  /-- Inside `stop()`, with this many Shutdown requests still to send; at
  zero it waits in `pool_.reset()` for every fiber to return. -/
  | stopping (remaining : Nat)
  /-- `fifo_destroy` has returned. -/
  | destroyed
  deriving DecidableEq

/-- A record a caller owns: a request it allocated and has not submitted or
freed, or a result it polled and has not freed. -/
inductive Held where
  | request (node : RequestNode)
  | completion (node : CompletionNode)
  | traverse (node : CompletionNode)
  | largeValue (node : LargeValueNode)
  deriving DecidableEq

/-- A record enqueued on one of the result queues. -/
inductive Post where
  | completion (comp : Completion)
  | traverse (comp : Completion)
  | largeValue (value : LargeValue)
  deriving DecidableEq

def Post.userData : Post → UInt64 × UInt64
  | .completion comp => comp.userData
  | .traverse comp => comp.userData
  | .largeValue value => value.userData

/-- The two queues that carry `Completion` records. -/
inductive RecordQueue where
  | completion
  | traverse
  deriving DecidableEq

namespace RecordQueue

def post : RecordQueue → Completion → Post
  | completion, comp => .completion comp
  | traverse, comp => .traverse comp

def held : RecordQueue → CompletionNode → Held
  | completion, node => .completion node
  | traverse, node => .traverse node

end RecordQueue

/-- `FifoManager`, the fibers of its pool, the callers' records, the heap,
and the history of the run. -/
structure Bridge where
  requestFifo : Option (Fifo (Option RequestNode))
  completionFifo : Option (Fifo CompletionNode)
  traverseFifo : Option (Fifo CompletionNode)
  largeValueFifo : Option (Fifo LargeValueNode)
  pool : List Fiber
  running : Bool
  numWorkers : Nat
  heap : Heap
  control : Control
  held : List Held
  /-- History: the request nodes callers put on the request queue. -/
  submitted : List RequestNode
  /-- History: the request nodes fibers took off the request queue. -/
  dequeued : List RequestNode
  /-- History: every record enqueued on a result queue, in order. -/
  posted : List Post
  /-- History: the addresses no owner holds any more: entries and nodes
  handed to a queue that was never created, or still queued when their queue
  was destroyed. -/
  leaked : List Nat

namespace Bridge

def recordFifo (bridge : Bridge) : RecordQueue → Option (Fifo CompletionNode)
  | .completion => bridge.completionFifo
  | .traverse => bridge.traverseFifo

def setRecordFifo (bridge : Bridge) : RecordQueue → Option (Fifo CompletionNode) → Bridge
  | .completion, fifo => { bridge with completionFifo := fifo }
  | .traverse, fifo => { bridge with traverseFifo := fifo }

/-! ## Posting results -/

/-- `ck_fifo_mpmc_wrapper_enqueue` on a record queue. -/
def enqueueRecord (bridge : Bridge) (queue : RecordQueue) (entry : Nat)
    (node : CompletionNode) : Bridge :=
  match bridge.recordFifo queue with
  | none => { bridge with leaked := bridge.leaked ++ [entry, node.addr] }
  | some fifo =>
      { bridge.setRecordFifo queue (some (fifo.enqueue entry node)) with
        posted := bridge.posted ++ [queue.post node.comp] }

/-- `post_completion` and `post_traverse`: allocate the node, then its queue
entry; a failed allocation drops the record, releasing the node if it was
allocated. -/
def postRecord (bridge : Bridge) (queue : RecordQueue) (comp : Completion) : Bridge :=
  match bridge.heap.alloc with
  | (none, heap) => { bridge with heap }
  | (some node, heap) =>
      match heap.alloc with
      | (none, heap) => { bridge with heap := heap.free node }
      | (some entry, heap) => { bridge with heap }.enqueueRecord queue entry ⟨node, comp⟩

/-- `FifoManager::post_completion`. -/
def postCompletion (bridge : Bridge) (comp : Completion) : Bridge :=
  bridge.postRecord .completion comp

/-- `FifoManager::post_traverse`. -/
def postTraverse (bridge : Bridge) (comp : Completion) : Bridge :=
  bridge.postRecord .traverse comp

/-- `ck_fifo_mpmc_wrapper_enqueue` on the large-value queue. -/
def enqueueLargeValue (bridge : Bridge) (entry : Nat) (node : LargeValueNode) : Bridge :=
  match bridge.largeValueFifo with
  | none => { bridge with leaked := bridge.leaked ++ [entry, node.addr] }
  | some fifo =>
      { bridge with
        largeValueFifo := some (fifo.enqueue entry node)
        posted := bridge.posted ++ [.largeValue node.value] }

/-- `FifoManager::post_large_value`: a value longer than `UINT32_MAX` is
dropped, and so is one whose node or entry cannot be allocated. -/
def postLargeValue (bridge : Bridge) (lo hi : UInt64) (data : List UInt8) : Bridge :=
  if uint32Max < data.length then bridge
  else
    match bridge.heap.alloc with
    | (none, heap) => { bridge with heap }
    | (some node, heap) =>
        match heap.alloc with
        | (none, heap) => { bridge with heap := heap.free node }
        | (some entry, heap) =>
            { bridge with heap }.enqueueLargeValue entry
              ⟨node, ⟨lo, hi, UInt32.ofNat data.length, data⟩⟩

/-- Make one posting call. -/
def perform (bridge : Bridge) : Emit → Bridge
  | .postCompletion comp => bridge.postCompletion comp
  | .postTraverse comp => bridge.postTraverse comp
  | .postLargeValue lo hi data => bridge.postLargeValue lo hi data

/-- Make the posting calls of a processor, in order. -/
def performAll (bridge : Bridge) (emits : List Emit) : Bridge :=
  emits.foldl perform bridge

end Bridge

/-- `ck_fifo_mpmc_wrapper_create`: the wrapper, then its stub entry; without
the stub the wrapper is freed and the queue is null. -/
def createFifo {α : Type} (heap : Heap) : Option (Fifo α) × Heap :=
  match heap.alloc with
  | (none, heap) => (none, heap)
  | (some wrapper, heap) =>
      match heap.alloc with
      | (none, heap) => (none, heap.free wrapper)
      | (some stub, heap) => (some ⟨wrapper, stub, []⟩, heap)

/-- `fifo_create`: the constructor creates the four queues in order; no
fiber runs yet. -/
def fifoCreate (outcomes : List Bool) : Bridge :=
  let request := (createFifo ⟨0, [], outcomes⟩ : Option (Fifo (Option RequestNode)) × Heap)
  let completion := (createFifo request.2 : Option (Fifo CompletionNode) × Heap)
  let traverse := (createFifo completion.2 : Option (Fifo CompletionNode) × Heap)
  let largeValue := (createFifo traverse.2 : Option (Fifo LargeValueNode) × Heap)
  { requestFifo := request.1, completionFifo := completion.1, traverseFifo := traverse.1
    largeValueFifo := largeValue.1, pool := [], running := false, numWorkers := 0
    heap := largeValue.2, control := .idle, held := [], submitted := [], dequeued := []
    posted := [], leaked := [] }

/-- The record a posting call enqueues when every allocation succeeds. -/
def Emit.record : Emit → Option Post
  | .postCompletion comp => some (.completion comp)
  | .postTraverse comp => some (.traverse comp)
  | .postLargeValue lo hi data =>
      if uint32Max < data.length then none
      else some (.largeValue ⟨lo, hi, UInt32.ofNat data.length, data⟩)

theorem filterMap_largeValueEmits (lo hi : UInt64) (value : List UInt8) :
    (largeValueEmits lo hi value).filterMap Emit.record =
      (if inlineCapacity < value.length ∧ value.length ≤ uint32Max then
        [⟨lo, hi, UInt32.ofNat value.length, value⟩] else []).map Post.largeValue := by
  unfold largeValueEmits
  by_cases large : inlineCapacity < value.length
  · by_cases fits : value.length ≤ uint32Max
    · simp [large, fits, Emit.record]
    · simp [large, fits, Emit.record, show uint32Max < value.length by omega]
  · simp [large]

theorem withValue_valueLen_of_inline (comp : Completion) (value : List UInt8)
    (inline : value.length ≤ inlineCapacity) :
    (comp.withValue value).valueLen.toNat = value.length := by
  simp only [Completion.withValue, if_pos inline]
  exact UInt32.toNat_ofNat_of_lt (by simp only [inlineCapacity, UInt32.size] at *; omega)

namespace Bridge

/-! ## Posting when every allocation succeeds -/

/-- The three result queues were created. -/
structure ResultQueuesExist (bridge : Bridge) : Prop where
  completion : bridge.completionFifo.isSome
  traverse : bridge.traverseFifo.isSome
  largeValue : bridge.largeValueFifo.isSome

@[simp]
theorem resultQueuesExist_iff (bridge : Bridge) :
    bridge.ResultQueuesExist ↔
      bridge.completionFifo.isSome ∧ bridge.traverseFifo.isSome ∧
        bridge.largeValueFifo.isSome :=
  ⟨fun created => ⟨created.1, created.2, created.3⟩,
    fun created => ⟨created.1, created.2.1, created.2.2⟩⟩

/-- Posting touches only the heap, the three result queues and their
history. -/
structure PostingFrame (before after : Bridge) : Prop where
  requestFifo : after.requestFifo = before.requestFifo
  pool : after.pool = before.pool
  running : after.running = before.running
  numWorkers : after.numWorkers = before.numWorkers
  control : after.control = before.control
  held : after.held = before.held
  submitted : after.submitted = before.submitted
  dequeued : after.dequeued = before.dequeued

theorem PostingFrame.refl (bridge : Bridge) : PostingFrame bridge bridge :=
  ⟨rfl, rfl, rfl, rfl, rfl, rfl, rfl, rfl⟩

theorem PostingFrame.trans {first second third : Bridge} (early : PostingFrame first second)
    (late : PostingFrame second third) : PostingFrame first third :=
  ⟨late.1.trans early.1, late.2.trans early.2, late.3.trans early.3, late.4.trans early.4,
    late.5.trans early.5, late.6.trans early.6, late.7.trans early.7, late.8.trans early.8⟩

theorem enqueueRecord_frame (bridge : Bridge) (queue : RecordQueue) (entry : Nat)
    (node : CompletionNode) : PostingFrame bridge (bridge.enqueueRecord queue entry node) := by
  unfold enqueueRecord; split <;> cases queue <;> exact ⟨rfl, rfl, rfl, rfl, rfl, rfl, rfl, rfl⟩

theorem perform_frame (bridge : Bridge) (emit : Emit) :
    PostingFrame bridge (bridge.perform emit) := by
  cases emit with
  | postCompletion comp | postTraverse comp =>
      simp only [perform, postCompletion, postTraverse, postRecord]
      split
      · exact ⟨rfl, rfl, rfl, rfl, rfl, rfl, rfl, rfl⟩
      · split
        · exact ⟨rfl, rfl, rfl, rfl, rfl, rfl, rfl, rfl⟩
        · refine PostingFrame.trans ?_ (enqueueRecord_frame _ _ _ _)
          exact ⟨rfl, rfl, rfl, rfl, rfl, rfl, rfl, rfl⟩
  | postLargeValue lo hi data =>
      simp only [perform, postLargeValue]
      split
      · exact ⟨rfl, rfl, rfl, rfl, rfl, rfl, rfl, rfl⟩
      · split
        · exact ⟨rfl, rfl, rfl, rfl, rfl, rfl, rfl, rfl⟩
        · split
          · exact ⟨rfl, rfl, rfl, rfl, rfl, rfl, rfl, rfl⟩
          · unfold enqueueLargeValue; split <;> exact ⟨rfl, rfl, rfl, rfl, rfl, rfl, rfl, rfl⟩

theorem performAll_frame (bridge : Bridge) (emits : List Emit) :
    PostingFrame bridge (bridge.performAll emits) := by
  induction emits generalizing bridge with
  | nil => exact ⟨rfl, rfl, rfl, rfl, rfl, rfl, rfl, rfl⟩
  | cons emit rest inductionHypothesis =>
      exact (perform_frame bridge emit).trans (inductionHypothesis _)

/-- With the result queues in place and no allocation failing, a posting
call enqueues exactly its record. -/
theorem perform_of_noFailure {bridge : Bridge} (noFailure : bridge.heap.NoFailure)
    (created : bridge.ResultQueuesExist) (emit : Emit) :
    (bridge.perform emit).posted = bridge.posted ++ emit.record.toList ∧
      (bridge.perform emit).heap.NoFailure ∧ (bridge.perform emit).ResultQueuesExist := by
  obtain ⟨completionSome, traverseSome, largeSome⟩ := created
  obtain ⟨completionFifo, isCompletion⟩ := Option.isSome_iff_exists.mp completionSome
  obtain ⟨traverseFifo, isTraverse⟩ := Option.isSome_iff_exists.mp traverseSome
  obtain ⟨largeFifo, isLarge⟩ := Option.isSome_iff_exists.mp largeSome
  have secondNoFailure : Heap.NoFailure
      { bridge.heap with next := bridge.heap.next + 1, outcomes := bridge.heap.outcomes.tail } :=
    Heap.noFailure_tail noFailure
  have thirdNoFailure : false ∉ bridge.heap.outcomes.tail.tail :=
    Heap.noFailure_tail secondNoFailure
  cases emit with
  | postCompletion comp =>
      simp [perform, postCompletion, postRecord, Heap.alloc_of_noFailure noFailure,
        Heap.alloc_of_noFailure secondNoFailure, enqueueRecord, recordFifo, setRecordFifo,
        isCompletion, isTraverse, isLarge, Emit.record, RecordQueue.post, Heap.NoFailure,
        thirdNoFailure]
  | postTraverse comp =>
      simp [perform, postTraverse, postRecord, Heap.alloc_of_noFailure noFailure,
        Heap.alloc_of_noFailure secondNoFailure, enqueueRecord, recordFifo, setRecordFifo,
        isCompletion, isTraverse, isLarge, Emit.record, RecordQueue.post, Heap.NoFailure,
        thirdNoFailure]
  | postLargeValue lo hi data =>
      by_cases tooLong : uint32Max < data.length
      · simp [perform, postLargeValue, tooLong, Emit.record, noFailure, completionSome,
          traverseSome, largeSome]
      · simp [perform, postLargeValue, tooLong, Heap.alloc_of_noFailure noFailure,
          Heap.alloc_of_noFailure secondNoFailure, enqueueLargeValue, isCompletion, isTraverse,
          isLarge, Emit.record, Heap.NoFailure, thirdNoFailure]

theorem performAll_of_noFailure {bridge : Bridge} (noFailure : bridge.heap.NoFailure)
    (created : bridge.ResultQueuesExist) (emits : List Emit) :
    (bridge.performAll emits).posted = bridge.posted ++ emits.filterMap Emit.record ∧
      (bridge.performAll emits).heap.NoFailure ∧ (bridge.performAll emits).ResultQueuesExist := by
  induction emits generalizing bridge with
  | nil => exact ⟨by simp [performAll], noFailure, created⟩
  | cons emit rest inductionHypothesis =>
      obtain ⟨posted, stillNoFailure, stillCreated⟩ := perform_of_noFailure noFailure created emit
      obtain ⟨restPosted, restNoFailure, restCreated⟩ :=
        inductionHypothesis stillNoFailure stillCreated
      refine ⟨?_, restNoFailure, restCreated⟩
      simp only [performAll, List.foldl_cons] at restPosted ⊢
      rw [restPosted, posted, List.filterMap_cons]
      cases emit.record <;> simp

end Bridge

theorem fifoCreate_noFailure : (fifoCreate []).heap.NoFailure := by
  simp [fifoCreate, createFifo, Heap.alloc, Heap.NoFailure]

theorem fifoCreate_resultQueuesExist : (fifoCreate []).ResultQueuesExist :=
  ⟨rfl, rfl, rfl⟩

end NomadFifo
