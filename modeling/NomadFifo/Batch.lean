import NomadFifo.RequestLife

/-!
# The batch entry points

`fifo_alloc_request_batch`, `fifo_submit_batch`, `fifo_poll_completion_batch`
and `fifo_poll_traverse_batch` run the loop of the single-item calls inside
one call, so that a batch crosses the FFI boundary once.  This module gives
their loops as `ck_wrapper.h` writes them and compares them with the single
calls.

* `allocRequestBatch_slots`: `alloc_request_batch` fills every slot of `out`
  with `alloc_request()` and returns the count it was given, whether the
  allocations succeeded or not: the count is the number of nodes allocated
  exactly when none of the allocations fails.
* `submit_batch` allocates a queue entry for every slot, null or not.  Each
  request meets the entry allocation its single `fifo_submit` call would
  meet, and the requests it puts on the queue are those of the single calls,
  in the same order; the null values it enqueues are skipped by the workers.
* The poll loops dequeue until the queue is empty or `max_count` records are
  out, which is what repeated single polls do.
-/

namespace NomadFifo

namespace Bridge

/-! ## Allocating a batch -/

/-- `FifoManager::alloc_request` with the node it returns: zeroed by
`memset`, or null. -/
def allocRequestNode (bridge : Bridge) : Option RequestNode × Bridge :=
  (bridge.heap.alloc.1.map fun addr => ⟨addr, Request.zero⟩, bridge.allocRequest Request.zero)

/-- The loop of `FifoManager::alloc_request_batch`: `out[i] = alloc_request()`
for every slot. -/
def allocRequests (bridge : Bridge) : Nat → List (Option RequestNode) × Bridge
  | 0 => ([], bridge)
  | count + 1 =>
      let (node, next) := bridge.allocRequestNode
      let (rest, after) := next.allocRequests count
      (node :: rest, after)

/-- `FifoManager::alloc_request_batch`: the count it returns, and the slots
of `out`. -/
def allocRequestBatch (bridge : Bridge) (count : Nat) : Nat × List (Option RequestNode) × Bridge :=
  (count, bridge.allocRequests count)

@[simp]
theorem allocRequest_outcomes (bridge : Bridge) (req : Request) :
    (bridge.allocRequest req).heap.outcomes = bridge.heap.outcomes.tail := by
  by_cases failed : bridge.heap.outcomes.head? = some false <;>
    simp [allocRequest, Heap.alloc, failed]

/-- One slot: null exactly when the allocation's outcome is a failure, and
otherwise a zeroed node that the caller now holds. -/
theorem allocRequestNode_cases (bridge : Bridge) :
    (bridge.heap.outcomes.head? = some false ∧ bridge.allocRequestNode.1 = none ∧
        bridge.allocRequestNode.2.held = bridge.held) ∨
      (bridge.heap.outcomes.head? ≠ some false ∧
        bridge.allocRequestNode.1 = some ⟨bridge.heap.next, Request.zero⟩ ∧
        bridge.allocRequestNode.2.held = bridge.held ++ [.request ⟨bridge.heap.next, Request.zero⟩]) := by
  by_cases failed : bridge.heap.outcomes.head? = some false <;>
    simp [allocRequestNode, allocRequest, Heap.alloc, failed]

theorem allocRequests_length (bridge : Bridge) (count : Nat) :
    (bridge.allocRequests count).1.length = count := by
  induction count generalizing bridge with
  | zero => rfl
  | succ count inductionHypothesis => simp [allocRequests, inductionHypothesis]

/-- The nodes allocated and the allocations that failed make up the count. -/
theorem allocRequests_allocated (bridge : Bridge) (count : Nat) :
    ((bridge.allocRequests count).1.filterMap id).length +
      (bridge.heap.outcomes.take count).count false = count := by
  induction count generalizing bridge with
  | zero => rfl
  | succ count inductionHypothesis =>
      have rest := inductionHypothesis bridge.allocRequestNode.2
      rw [show bridge.allocRequestNode.2.heap.outcomes = bridge.heap.outcomes.tail from
        allocRequest_outcomes bridge Request.zero] at rest
      simp only [allocRequests]
      rcases allocRequestNode_cases bridge with ⟨failed, null, -⟩ | ⟨succeeded, node, -⟩
      · obtain ⟨tail, outcomes⟩ := List.head?_eq_some_iff.mp failed
        simp only [null, outcomes, List.tail_cons, List.filterMap_cons, id, List.take_succ_cons,
          List.count_cons_self] at rest ⊢
        omega
      · have taken : (bridge.heap.outcomes.take (count + 1)).count false =
            (bridge.heap.outcomes.tail.take count).count false := by
          match bridge.heap.outcomes, succeeded with
          | [], _ => simp
          | true :: tail, _ => simp
          | false :: tail, succeeded => simp at succeeded
        simp only [node, List.filterMap_cons, id, List.length_cons, taken]
        omega

/-- The caller holds the nodes of the non-null slots, each zeroed. -/
theorem allocRequests_held (bridge : Bridge) (count : Nat) :
    (bridge.allocRequests count).2.held =
        bridge.held ++ ((bridge.allocRequests count).1.filterMap id).map .request ∧
      ∀ node ∈ (bridge.allocRequests count).1.filterMap id, node.req = Request.zero := by
  induction count generalizing bridge with
  | zero => simp [allocRequests]
  | succ count inductionHypothesis =>
      obtain ⟨held, zeroed⟩ := inductionHypothesis bridge.allocRequestNode.2
      simp only [allocRequests, held]
      rcases allocRequestNode_cases bridge with ⟨-, null, same⟩ | ⟨-, node, grown⟩
      · simpa [null, same] using zeroed
      · simpa [node, grown] using zeroed

/-- `alloc_request_batch` fills its `count` slots with the nodes it
allocates, each zeroed and held by the caller, and with one null slot per
failed allocation; so the count it returns is the number of nodes allocated
exactly when none of its allocations fails. -/
theorem allocRequestBatch_slots (bridge : Bridge) (count : Nat) :
    (bridge.allocRequestBatch count).2.1.length = count ∧
      ((bridge.allocRequestBatch count).2.1.filterMap id).length +
          (bridge.heap.outcomes.take count).count false = count ∧
      (bridge.allocRequestBatch count).2.2.held =
        bridge.held ++ ((bridge.allocRequestBatch count).2.1.filterMap id).map .request ∧
      (∀ node ∈ (bridge.allocRequestBatch count).2.1.filterMap id, node.req = Request.zero) ∧
      ((bridge.allocRequestBatch count).1 =
          ((bridge.allocRequestBatch count).2.1.filterMap id).length ↔
        false ∉ bridge.heap.outcomes.take count) := by
  have allocated := allocRequests_allocated bridge count
  obtain ⟨held, zeroed⟩ := allocRequests_held bridge count
  refine ⟨allocRequests_length bridge count, allocated, held, zeroed, ?_⟩
  simp only [allocRequestBatch, ← List.count_eq_zero]
  omega

/-! ## Submitting a batch -/

/-- `FifoManager::submit_batch`: each slot in turn gets an entry, null or
not; `ck_wrapper_fence_store` then publishes the batch. -/
def submitBatch (bridge : Bridge) (nodes : List (Option RequestNode)) : Bridge :=
  nodes.foldl submit bridge

/-- `fifo_submit`: a null node is not submitted. -/
def fifoSubmit (bridge : Bridge) : Option RequestNode → Bridge
  | none => bridge
  | some node => bridge.submit (some node)

/-- What `submit` does to the request side: the entry allocation fails and
the node is freed, or it succeeds and the node joins the queue, if there is
one, and the history. -/
theorem submit_request_side (bridge : Bridge) (node : Option RequestNode) :
    (bridge.submit node).requestFifo.isSome = bridge.requestFifo.isSome ∧
      (bridge.submit node).heap.outcomes = bridge.heap.outcomes.tail ∧
      ((bridge.heap.outcomes.head? = some false ∧ (bridge.submit node).waiting = bridge.waiting ∧
          (bridge.submit node).submitted = bridge.submitted ∧
          (bridge.submit node).heap.freed = bridge.heap.freed ++ node.toList.map RequestNode.addr) ∨
        (bridge.heap.outcomes.head? ≠ some false ∧
          (bridge.submit node).waiting =
            bridge.waiting ++ (if bridge.requestFifo.isSome then node.toList else []) ∧
          (bridge.submit node).submitted = bridge.submitted ++ node.toList ∧
          (bridge.submit node).heap.freed = bridge.heap.freed)) := by
  by_cases failed : bridge.heap.outcomes.head? = some false <;>
    cases fifo : bridge.requestFifo <;> cases node <;>
      simp [submit, Heap.alloc, failed, Heap.free, waiting, enqueueRequest, fifo, Fifo.enqueue]

/-- After `fifo_create`, with the next allocation failing,
`fifo_alloc_request_batch` asked for one node returns 1 while its only slot
is null, and `fifo_submit_batch` given that slot puts a null request on the
request queue. -/
theorem allocRequestBatch_counts_null_slot :
    ∃ after, (fifoCreate (List.replicate 8 true ++ [false])).allocRequestBatch 1 = (1, [none], after) ∧
      (after.submitBatch [none]).requestFifo.map Fifo.items = some [(8, none)] :=
  ⟨_, rfl, rfl⟩

/-! ### The single calls -/

/-- Specification side: `fifo_submit(mgr, nodes[0])`, ...,
`fifo_submit(mgr, nodes[count - 1])`, one after the other. -/
def submitEach (bridge : Bridge) (nodes : List (Option RequestNode)) : Bridge :=
  nodes.foldl fifoSubmit bridge

/-- The bridge with the outcomes of the allocations still to come replaced. -/
def withOutcomes (bridge : Bridge) (outcomes : List Bool) : Bridge :=
  { bridge with heap := { bridge.heap with outcomes } }

/-- The outcomes the entry allocations of the single calls meet, given those
the batch meets: a null slot allocates nothing there, and each request meets
the outcome its slot meets in the batch. -/
def singleOutcomes : List (Option RequestNode) → List Bool → List Bool
  | [], outcomes => outcomes
  | none :: nodes, outcomes => singleOutcomes nodes outcomes.tail
  | some _ :: nodes, outcomes => outcomes.headD true :: singleOutcomes nodes outcomes.tail

/-- What the workers and the history see of the request side. -/
structure SubmitAgree (batch singles : Bridge) : Prop where
  queue : batch.requestFifo.isSome = singles.requestFifo.isSome
  waiting : batch.waiting = singles.waiting
  submitted : batch.submitted = singles.submitted
  freed : batch.heap.freed = singles.heap.freed

section Agree

variable {batch singles : Bridge}

/-- A null slot of the batch changes nothing the workers see. -/
theorem SubmitAgree.submit_none (agree : SubmitAgree batch singles) :
    SubmitAgree (batch.submit none) singles := by
  obtain ⟨queue, -, side⟩ := submit_request_side batch none
  rcases side with ⟨-, waiting, submitted, freed⟩ | ⟨-, waiting, submitted, freed⟩ <;>
    exact ⟨queue ▸ agree.queue, by simpa [waiting] using agree.waiting,
      by simpa [submitted] using agree.submitted, by simpa [freed] using agree.freed⟩

/-- A request that meets the same entry allocation on both sides. -/
theorem SubmitAgree.submit_some (agree : SubmitAgree batch singles) (node : RequestNode)
    (same : batch.heap.outcomes.head? = some false ↔ singles.heap.outcomes.head? = some false) :
    SubmitAgree (batch.submit (some node)) (singles.submit (some node)) := by
  obtain ⟨queue, -, side⟩ := submit_request_side batch (some node)
  obtain ⟨queue', -, side'⟩ := submit_request_side singles (some node)
  rcases side with ⟨failed, waiting, submitted, freed⟩ | ⟨failed, waiting, submitted, freed⟩ <;>
    rcases side' with ⟨failed', waiting', submitted', freed'⟩ | ⟨failed', waiting', submitted', freed'⟩
  · exact ⟨queue.trans (agree.queue.trans queue'.symm), by rw [waiting, waiting', agree.waiting],
      by rw [submitted, submitted', agree.submitted], by rw [freed, freed', agree.freed]⟩
  · exact absurd (same.mp failed) failed'
  · exact absurd (same.mpr failed') failed
  · exact ⟨queue.trans (agree.queue.trans queue'.symm),
      by rw [waiting, waiting', agree.waiting, agree.queue],
      by rw [submitted, submitted', agree.submitted], by rw [freed, freed', agree.freed]⟩

/-- Over a whole array, with each request meeting the same entry allocation
on both sides. -/
theorem SubmitAgree.submitBatch (agree : SubmitAgree batch singles) (nodes : List (Option RequestNode))
    (outcomes : singles.heap.outcomes = singleOutcomes nodes batch.heap.outcomes) :
    SubmitAgree (batch.submitBatch nodes) (singles.submitEach nodes) := by
  induction nodes generalizing batch singles with
  | nil => exact agree
  | cons node nodes inductionHypothesis =>
      have batchOutcomes := (submit_request_side batch node).2.1
      cases node with
      | none =>
          refine inductionHypothesis agree.submit_none ?_
          rw [batchOutcomes]
          exact outcomes
      | some node =>
          have same : batch.heap.outcomes.head? = some false ↔
              singles.heap.outcomes.head? = some false := by
            rw [outcomes, singleOutcomes]
            cases batch.heap.outcomes with
            | nil => simp
            | cons first rest => cases first <;> simp
          refine inductionHypothesis (agree.submit_some node same) ?_
          rw [batchOutcomes, show singles.fifoSubmit (some node) = singles.submit (some node) from rfl,
            (submit_request_side singles (some node)).2.1, outcomes]
          rfl

end Agree

/-! ## Polling a batch -/

/-- `FifoManager::poll_completion` and `poll_traverse`: the record they
return, or null. -/
def polledRecord (bridge : Bridge) (queue : RecordQueue) : Option CompletionNode :=
  (bridge.recordFifo queue).bind fun fifo => fifo.dequeue.map Prod.fst

/-- The loop of `poll_completion_batch` and `poll_traverse_batch`: dequeue,
free the old head, stop at an empty queue, else store the record in
`out[count++]`, for at most `max_count` turns.  The count they return is the
length of the list. -/
def pollRecordBatch (bridge : Bridge) (queue : RecordQueue) : Nat → List CompletionNode × Bridge
  | 0 => ([], bridge)
  | maxCount + 1 =>
      match bridge.recordFifo queue with
      | none => ([], bridge)
      | some fifo =>
          match fifo.dequeue with
          | none => ([], bridge)
          | some (node, garbage, fifo) =>
              let next := { (bridge.setRecordFifo queue (some fifo)).free garbage with
                held := bridge.held ++ [queue.held node] }
              let (nodes, after) := next.pollRecordBatch queue maxCount
              (node :: nodes, after)

/-- Specification side: `fifo_poll_completion` (or `fifo_poll_traverse`)
called again and again, stopped at the first null or after `maxCount`
records. -/
def pollEach (bridge : Bridge) (queue : RecordQueue) : Nat → List CompletionNode × Bridge
  | 0 => ([], bridge)
  | maxCount + 1 =>
      match bridge.polledRecord queue with
      | none => ([], bridge.pollRecord queue)
      | some node =>
          let (nodes, after) := (bridge.pollRecord queue).pollEach queue maxCount
          (node :: nodes, after)

theorem pollRecordBatch_eq_pollEach (bridge : Bridge) (queue : RecordQueue) (maxCount : Nat) :
    bridge.pollRecordBatch queue maxCount = bridge.pollEach queue maxCount := by
  induction maxCount generalizing bridge with
  | zero => rfl
  | succ maxCount inductionHypothesis =>
      simp only [pollRecordBatch, pollEach, polledRecord, pollRecord]
      rcases bridge.recordFifo queue with _ | fifo
      · rfl
      · simp only [Option.some_bind]
        rcases fifo.dequeue with _ | ⟨node, garbage, rest⟩
        · rfl
        · simp [inductionHypothesis]

/-- `fifo_submit_batch` puts on the request queue what the single
`fifo_submit` calls put there, in the same order and with the same requests
freed, when each request meets the same entry allocation on both sides (the
null slots' allocations are the batch's own); the null values it also
enqueues are skipped by the workers.  `fifo_poll_completion_batch` and
`fifo_poll_traverse_batch` return the records, and leave the state, that
repeated single polls stopped at the first null or after `max_count` records
do. -/
theorem batches_agree_with_single_calls :
    (∀ (bridge : Bridge) (nodes : List (Option RequestNode)),
      (bridge.submitBatch nodes).waiting =
          ((bridge.withOutcomes (singleOutcomes nodes bridge.heap.outcomes)).submitEach nodes).waiting ∧
        (bridge.submitBatch nodes).submitted =
          ((bridge.withOutcomes (singleOutcomes nodes bridge.heap.outcomes)).submitEach nodes).submitted ∧
        (bridge.submitBatch nodes).heap.freed =
          ((bridge.withOutcomes (singleOutcomes nodes bridge.heap.outcomes)).submitEach nodes).heap.freed) ∧
      ∀ (bridge : Bridge) (queue : RecordQueue) (maxCount : Nat),
        bridge.pollRecordBatch queue maxCount = bridge.pollEach queue maxCount := by
  refine ⟨fun bridge nodes => ?_, pollRecordBatch_eq_pollEach⟩
  have agree := @SubmitAgree.submitBatch bridge
    (bridge.withOutcomes (singleOutcomes nodes bridge.heap.outcomes)) ⟨rfl, rfl, rfl, rfl⟩ nodes rfl
  exact ⟨agree.waiting, agree.submitted, agree.freed⟩

end Bridge

end NomadFifo
