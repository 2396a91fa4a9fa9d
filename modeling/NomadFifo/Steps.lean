import NomadFifo.Scheduler

/-!
# What one step can do

Every invariant of the bridge is proved the same way: it holds of the state
`fifo_create` builds, and each step keeps it (`Bridge.run_induction`).  This
module says once what a step does to the parts of the state that the
invariants read.

* `Heap.alloc_cases`: an allocation returns the next address, or null.
* `Bridge.step_iff`: a step is one case of `Bridge.Stepped`, the label's
  operation under its guard; every invariant below is a case analysis on it.
* `Bridge.step_posts`: with the result queues created and no allocation
  failing, a step enqueues exactly the records of the posting calls its
  fiber makes, `Bridge.stepEmits`.
* `Bridge.Settled`: the pool is empty whenever no `start()` is in force, and
  after `fifo_destroy` the queues are gone as well.
-/

namespace NomadFifo

theorem Heap.alloc_cases (heap : Heap) :
    heap.alloc = (none, { heap with outcomes := heap.outcomes.tail }) ∨
      heap.alloc = (some heap.next,
        { heap with next := heap.next + 1, outcomes := heap.outcomes.tail }) := by
  unfold Heap.alloc; split <;> simp

/-- A queue is created empty. -/
theorem createFifo_empty {α : Type} (heap : Heap) :
    ∀ fifo ∈ (createFifo heap : Option (Fifo α) × Heap).1, fifo.items = [] := by
  unfold createFifo
  repeat' split
  all_goals simp

/-- With no allocation failing, `ck_fifo_mpmc_wrapper_create` takes the
next two addresses. -/
theorem createFifo_of_noFailure {α : Type} {heap : Heap} (noFailure : heap.NoFailure) :
    (createFifo heap : Option (Fifo α) × Heap) =
      (some ⟨heap.next, heap.next + 1, []⟩, ⟨heap.next + 2, heap.freed, heap.outcomes.drop 2⟩) := by
  have second : Heap.NoFailure ⟨heap.next + 1, heap.freed, heap.outcomes.tail⟩ :=
    Heap.noFailure_tail noFailure
  have twice : heap.outcomes.tail.tail = heap.outcomes.drop 2 := by
    rcases heap.outcomes with _ | ⟨_, _ | ⟨_, _⟩⟩ <;> rfl
  simp [createFifo, Heap.alloc_of_noFailure noFailure, Heap.alloc_of_noFailure second, twice]

/-- With no allocation failing, `fifo_create` creates the four queues. -/
theorem fifoCreate_of_noFailure {outcomes : List Bool} (noFailure : false ∉ outcomes) :
    (fifoCreate outcomes).heap.NoFailure ∧ (fifoCreate outcomes).ResultQueuesExist ∧
      (fifoCreate outcomes).requestFifo.isSome := by
  have dropped : ∀ (count next : Nat), Heap.NoFailure ⟨next, [], outcomes.drop count⟩ :=
    fun _ _ member => noFailure (List.mem_of_mem_drop member)
  simpa [fifoCreate, createFifo_of_noFailure (show Heap.NoFailure ⟨0, [], outcomes⟩ from noFailure),
    createFifo_of_noFailure (dropped 2 2), createFifo_of_noFailure (dropped 4 4),
    createFifo_of_noFailure (dropped 6 6)] using dropped 8 8

/-- The posting calls of a fiber's step. -/
def workerEmits : Fiber → FiberEvent → List Emit
  | .finding node, .found result => processFind node.req result
  | .resolving node, .resolved false => [.postTraverse (traverseEnd node.req)]
  | .walking _ machine, .walk event => (machine.handle event).2
  | .walking node _, .walkEnd => [.postTraverse (traverseEnd node.req)]
  | _, _ => []

namespace Bridge

/-- The posting calls of a step: those of the fiber that takes it. -/
def stepEmits (bridge : Bridge) : Label → List Emit
  | .fiber index event =>
      match bridge.pool[index]? with
      | some fiber => workerEmits fiber event
      | none => []
  | _ => []

/-- An invariant that each step keeps, for labels of some kind, holds at the
end of every run of such labels. -/
theorem run_induction {Good : Label → Prop} {Inv : Bridge → Prop}
    (preserved : ∀ bridge label after, Good label → Inv bridge →
      bridge.step label = some after → Inv after) :
    ∀ {labels : List Label} {bridge final : Bridge}, (∀ label ∈ labels, Good label) →
      Inv bridge → bridge.run labels = some final → Inv final
  | [], _, _, _, holds, ran => by cases ran; exact holds
  | label :: rest, bridge, final, good, holds, ran => by
      rw [run_cons] at ran
      obtain ⟨next, stepped, ranRest⟩ := Option.bind_eq_some.mp ran
      exact run_induction preserved (fun other member => good other (.tail _ member))
        (preserved bridge label next (good label (.head _)) holds stepped) ranRest

/-- Nothing happens after `fifo_destroy`. -/
theorem step_alive {bridge after : Bridge} {label : Label}
    (stepped : bridge.step label = some after) : bridge.control ≠ .destroyed := fun destroyed => by
  simp [step, destroyed] at stepped

/-- `Bridge.step` read as a relation: what each label does, with the guard
under which it can happen. -/
inductive Stepped (bridge : Bridge) : Label → Bridge → Prop
  | allocRequest (req : Request) : Stepped bridge (.allocRequest req) (bridge.allocRequest req)
  | submit {node : Option RequestNode} {given : Bridge} (handed : bridge.handOver node = some given) :
      Stepped bridge (.submit node) (given.submit node)
  | poll (queue : RecordQueue) : Stepped bridge (.poll queue) (bridge.pollRecord queue)
  | pollLargeValue : Stepped bridge .pollLargeValue bridge.pollLargeValue
  | free {held : Held} (member : held ∈ bridge.held) :
      Stepped bridge (.free held) (bridge.release held)
  | start (numWorkers : Nat) (idle : bridge.control = .idle) :
      Stepped bridge (.start numWorkers) (bridge.start numWorkers)
  | stop (idle : bridge.control = .idle) : Stepped bridge .stop bridge.stop
  | stopSend {remaining : Nat} (stopping : bridge.control = .stopping (remaining + 1)) :
      Stepped bridge .stopSend { bridge.sendShutdown with control := .stopping remaining }
  | stopJoin (stopping : bridge.control = .stopping 0) (exited : bridge.pool.all (· == .exited)) :
      Stepped bridge .stopJoin { bridge with pool := [], numWorkers := 0, control := .idle }
  | destroy (idle : bridge.control = .idle) (stopped : bridge.running = false) :
      Stepped bridge .destroy bridge.destroy
  | fiber {index : Nat} {event : FiberEvent} {fiber next : Fiber} {mid : Bridge}
      (found : bridge.pool[index]? = some fiber)
      (worked : bridge.workerStep fiber event = some (next, mid)) :
      Stepped bridge (.fiber index event) { mid with pool := mid.pool.set index next }

/-- A step happens exactly when the bridge is not destroyed and the label's
case of `Stepped` applies. -/
theorem step_iff {bridge after : Bridge} {label : Label} :
    bridge.step label = some after ↔ bridge.control ≠ .destroyed ∧ Stepped bridge label after := by
  constructor
  · intro stepped
    have alive := step_alive stepped
    refine ⟨alive, ?_⟩
    unfold step at stepped
    rw [if_neg alive] at stepped
    cases label with
    | allocRequest req => cases stepped; exact .allocRequest req
    | submit node =>
        obtain ⟨given, handed, rfl⟩ := Option.map_eq_some'.mp stepped
        exact .submit handed
    | poll queue => cases stepped; exact .poll queue
    | pollLargeValue => cases stepped; exact .pollLargeValue
    | free held =>
        simp only [Option.ite_none_right_eq_some, Option.some.injEq] at stepped
        obtain ⟨member, rfl⟩ := stepped
        exact .free member
    | start numWorkers =>
        simp only [Option.ite_none_right_eq_some, Option.some.injEq] at stepped
        obtain ⟨idle, rfl⟩ := stepped
        exact .start numWorkers idle
    | stop =>
        simp only [Option.ite_none_right_eq_some, Option.some.injEq] at stepped
        obtain ⟨idle, rfl⟩ := stepped
        exact .stop idle
    | stopSend =>
        dsimp only at stepped
        split at stepped
        · rename_i stopping
          cases stepped
          exact .stopSend stopping
        · cases stepped
    | stopJoin =>
        simp only [Option.ite_none_right_eq_some, Option.some.injEq] at stepped
        obtain ⟨⟨stopping, exited⟩, rfl⟩ := stepped
        exact .stopJoin stopping exited
    | destroy =>
        simp only [Option.ite_none_right_eq_some, Option.some.injEq] at stepped
        obtain ⟨⟨idle, stopped⟩, rfl⟩ := stepped
        exact .destroy idle stopped
    | fiber index event =>
        dsimp only at stepped
        unfold runFiber at stepped
        split at stepped
        · cases stepped
        · rename_i fiber found
          obtain ⟨⟨next, mid⟩, worked, rfl⟩ := Option.map_eq_some'.mp stepped
          exact .fiber found worked
  · rintro ⟨alive, stepped⟩
    cases stepped with
    | stopJoin stopping exited => simp [step, alive, stopping, exited]
    | _ => simp_all [step, runFiber]

/-! ## Posting -/

/-- `Bridge.workerStep` read as a relation: the moves of a fiber from one
control point of `worker_fiber` to the next. -/
inductive Worked (bridge : Bridge) : Fiber → FiberEvent → Fiber → Bridge → Prop
  | check : Worked bridge .loop .advance (if bridge.running then .dequeuing else .exited) bridge
  | dispatch : Worked bridge .dequeuing .advance bridge.dispatch.1 bridge.dispatch.2
  | found (node : RequestNode) (result : FindResult) :
      Worked bridge (.finding node) (.found result) .loop
        ((bridge.performAll (processFind node.req result)).free node.addr)
  | resolved (node : RequestNode) :
      Worked bridge (.resolving node) (.resolved true) (.walking node (traverseMachine node.req))
        bridge
  | unresolved (node : RequestNode) :
      Worked bridge (.resolving node) (.resolved false) .loop (bridge.endTraverse node)
  | walk (node : RequestNode) (machine : FifoTraverseMachine) (event : WalkEvent) :
      Worked bridge (.walking node machine) (.walk event) (.walking node (machine.handle event).1)
        (bridge.performAll (machine.handle event).2)
  | walkEnd (node : RequestNode) (machine : FifoTraverseMachine) :
      Worked bridge (.walking node machine) .walkEnd .loop (bridge.endTraverse node)

theorem workerStep_iff {bridge mid : Bridge} {fiber next : Fiber} {event : FiberEvent} :
    bridge.workerStep fiber event = some (next, mid) ↔ Worked bridge fiber event next mid := by
  constructor
  · intro stepped
    cases fiber <;> cases event <;> simp only [workerStep, Option.some.injEq, reduceCtorEq,
      Prod.mk.injEq] at stepped
    case loop.advance => obtain ⟨rfl, rfl⟩ := stepped; exact .check
    case dequeuing.advance =>
      obtain ⟨rfl, rfl⟩ : next = bridge.dispatch.1 ∧ mid = bridge.dispatch.2 := by simp [stepped]
      exact .dispatch
    case finding.found node result => obtain ⟨rfl, rfl⟩ := stepped; exact .found node result
    case resolving.resolved node found =>
      cases found <;> simp only [Bool.false_eq_true, reduceIte, Option.some.injEq,
        Prod.mk.injEq] at stepped <;> obtain ⟨rfl, rfl⟩ := stepped
      · exact .unresolved node
      · exact .resolved node
    case walking.walk node machine event => obtain ⟨rfl, rfl⟩ := stepped; exact .walk node machine event
    case walking.walkEnd node machine => obtain ⟨rfl, rfl⟩ := stepped; exact .walkEnd node machine
  · intro worked
    cases worked <;> rfl

/-- `dispatch` touches only the request queue, the freed list and the
dequeued history. -/
theorem dispatch_frame (bridge : Bridge) :
    bridge.dispatch.2.pool = bridge.pool ∧ bridge.dispatch.2.running = bridge.running ∧
      bridge.dispatch.2.control = bridge.control ∧
      bridge.dispatch.2.submitted = bridge.submitted ∧ bridge.dispatch.2.posted = bridge.posted ∧
      bridge.dispatch.2.heap.outcomes = bridge.heap.outcomes ∧
      (bridge.dispatch.2.ResultQueuesExist ↔ bridge.ResultQueuesExist) := by
  unfold dispatch
  repeat' split
  all_goals simp [free, Heap.free]

theorem endTraverse_eq (bridge : Bridge) (node : RequestNode) :
    bridge.endTraverse node =
      (bridge.performAll [.postTraverse (traverseEnd node.req)]).free node.addr :=
  rfl

/-- Outside `dispatch`, a fiber's step only posts and frees. -/
theorem Worked.postingFrame {bridge mid : Bridge} {fiber next : Fiber} {event : FiberEvent}
    (worked : Worked bridge fiber event next mid) (notDequeuing : fiber ≠ .dequeuing) :
    PostingFrame bridge mid := by
  have posting : ∀ (emits : List Emit) (addr : Nat),
      PostingFrame bridge ((bridge.performAll emits).free addr) := fun emits _ =>
    have frame := performAll_frame bridge emits
    ⟨frame.1, frame.2, frame.3, frame.4, frame.5, frame.6, frame.7, frame.8⟩
  cases worked with
  | check | resolved => exact PostingFrame.refl bridge
  | dispatch => exact absurd rfl notDequeuing
  | found => exact posting _ _
  | unresolved | walkEnd => rw [endTraverse_eq]; exact posting _ _
  | walk => exact performAll_frame _ _

theorem workerStep_posts {bridge : Bridge} {fiber after : Fiber} {event : FiberEvent}
    {mid : Bridge} (noFailure : bridge.heap.NoFailure) (created : bridge.ResultQueuesExist)
    (stepped : bridge.workerStep fiber event = some (after, mid)) :
    mid.posted = bridge.posted ++ (workerEmits fiber event).filterMap Emit.record ∧
      mid.heap.NoFailure ∧ mid.ResultQueuesExist := by
  have posting : ∀ (emits : List Emit) (addr : Nat),
      ((bridge.performAll emits).free addr).posted =
          bridge.posted ++ emits.filterMap Emit.record ∧
        ((bridge.performAll emits).free addr).heap.NoFailure ∧
        ((bridge.performAll emits).free addr).ResultQueuesExist := fun emits addr => by
    obtain ⟨posted, stillNoFailure, stillCreated⟩ := performAll_of_noFailure noFailure created emits
    exact ⟨posted, stillNoFailure, stillCreated.1, stillCreated.2, stillCreated.3⟩
  cases workerStep_iff.mp stepped with
  | check | resolved => exact ⟨by simp [workerEmits], noFailure, created⟩
  | dispatch =>
      obtain ⟨-, -, -, -, posted, outcomes, exist⟩ := dispatch_frame bridge
      exact ⟨by simp [posted, workerEmits], by rw [Heap.NoFailure, outcomes]; exact noFailure,
        exist.mpr created⟩
  | found => exact posting _ _
  | unresolved | walkEnd => rw [endTraverse_eq]; exact posting _ _
  | walk => exact performAll_of_noFailure noFailure created _

/-- A step that posts nothing: the history of records stays, with no
allocation failing before it none fails after, and it removes no result
queue. -/
structure PostingKept (before after : Bridge) : Prop where
  posted : after.posted = before.posted
  noFailure : before.heap.NoFailure → after.heap.NoFailure
  created : before.ResultQueuesExist → after.ResultQueuesExist

/-- A step of a caller that leaves alone everything the fibers work on: the
request queue, the pool, the flag, the control thread, and the histories.
With no allocation failing before it, none fails after, and it removes no
result queue. -/
structure CallerFrame (before after : Bridge) : Prop where
  requestFifo : after.requestFifo = before.requestFifo
  pool : after.pool = before.pool
  running : after.running = before.running
  control : after.control = before.control
  submitted : after.submitted = before.submitted
  dequeued : after.dequeued = before.dequeued
  posted : after.posted = before.posted
  noFailure : before.heap.NoFailure → after.heap.NoFailure
  created : before.ResultQueuesExist → after.ResultQueuesExist

theorem allocRequest_frame (bridge : Bridge) (req : Request) :
    CallerFrame bridge (bridge.allocRequest req) := by
  rcases Heap.alloc_cases bridge.heap with allocated | allocated <;> constructor <;>
    simp [allocRequest, allocated, Heap.NoFailure] <;> exact Heap.noFailure_tail

theorem handOver_frame {bridge given : Bridge} {node : Option RequestNode}
    (handed : bridge.handOver node = some given) : CallerFrame bridge given := by
  cases node with
  | none => cases handed; constructor <;> simp
  | some node =>
      simp only [handOver, Option.ite_none_right_eq_some, Option.some.injEq] at handed
      obtain ⟨-, rfl⟩ := handed
      constructor <;> simp

theorem pollRecord_frame (bridge : Bridge) (queue : RecordQueue) :
    CallerFrame bridge (bridge.pollRecord queue) := by
  unfold pollRecord
  split
  · constructor <;> simp
  · split
    · constructor <;> simp
    · cases queue <;> constructor <;> simp_all [setRecordFifo, recordFifo, free, Heap.free,
        Heap.NoFailure]

theorem pollLargeValue_frame (bridge : Bridge) : CallerFrame bridge bridge.pollLargeValue := by
  unfold pollLargeValue
  split
  · constructor <;> simp
  · split
    · constructor <;> simp
    · constructor <;> simp_all [free, Heap.free, Heap.NoFailure]

theorem release_frame (bridge : Bridge) (held : Held) :
    CallerFrame bridge (bridge.release held) := by
  constructor <;> simp [release, free, Heap.free, Heap.NoFailure]

theorem CallerFrame.kept {before after : Bridge} (frame : CallerFrame before after) :
    PostingKept before after :=
  ⟨frame.posted, frame.noFailure, frame.created⟩

theorem submit_kept (bridge : Bridge) (node : Option RequestNode) :
    PostingKept bridge (bridge.submit node) := by
  rcases Heap.alloc_cases bridge.heap with allocated | allocated
  · cases node <;> constructor <;>
      simp [submit, allocated, Heap.NoFailure, Heap.free] <;> exact Heap.noFailure_tail
  · constructor <;> simp only [submit, allocated, enqueueRequest] <;> split <;>
      simp [Heap.NoFailure] <;> exact Heap.noFailure_tail

theorem sendShutdown_kept (bridge : Bridge) : PostingKept bridge bridge.sendShutdown := by
  have twice : bridge.heap.NoFailure → false ∉ bridge.heap.outcomes.tail.tail :=
    fun noFailure member => noFailure (List.mem_of_mem_tail (List.mem_of_mem_tail member))
  rcases Heap.alloc_cases bridge.heap with allocated | allocated
  · constructor <;> simp [sendShutdown, allocated, Heap.NoFailure]
    exact Heap.noFailure_tail
  · rcases Heap.alloc_cases { bridge.heap with
        next := bridge.heap.next + 1, outcomes := bridge.heap.outcomes.tail } with
      second | second <;> constructor <;>
      simp only [sendShutdown, allocated, second, enqueueRequest] <;>
      (try split) <;> simp_all [Heap.NoFailure, Heap.free]

theorem destroyFifo_outcomes {α : Type} (bridge : Bridge) (values : α → List Nat)
    (fifo : Option (Fifo α)) :
    (bridge.destroyFifo values fifo).heap.outcomes = bridge.heap.outcomes := by
  cases fifo <;> rfl

theorem destroy_outcomes (bridge : Bridge) :
    bridge.destroy.heap.outcomes = bridge.heap.outcomes := by
  simp [destroy, destroyFifo_outcomes]

/-- With the result queues created and no allocation failing, a step
enqueues the records of its fiber's posting calls, and after it no
allocation fails and, unless it destroyed the bridge, the result queues are
still there. -/
theorem step_posts {bridge after : Bridge} {label : Label} (noFailure : bridge.heap.NoFailure)
    (created : bridge.ResultQueuesExist) (stepped : bridge.step label = some after) :
    after.posted = bridge.posted ++ (bridge.stepEmits label).filterMap Emit.record ∧
      after.heap.NoFailure ∧ (after.control ≠ .destroyed → after.ResultQueuesExist) := by
  have kept : PostingKept bridge after → bridge.stepEmits label = [] →
      after.posted = bridge.posted ++ (bridge.stepEmits label).filterMap Emit.record ∧
        after.heap.NoFailure ∧ (after.control ≠ .destroyed → after.ResultQueuesExist) :=
    fun keeps silent => ⟨by simp [silent, keeps.posted], keeps.noFailure noFailure,
      fun _ => keeps.created created⟩
  cases (step_iff.mp stepped).2 with
  | allocRequest req => exact kept (allocRequest_frame _ _).kept rfl
  | @submit node given handed =>
      have first := (handOver_frame handed).kept
      have second := submit_kept given node
      exact kept ⟨second.posted.trans first.posted, second.noFailure ∘ first.noFailure,
        second.created ∘ first.created⟩ rfl
  | poll queue => exact kept (pollRecord_frame _ _).kept rfl
  | pollLargeValue => exact kept (pollLargeValue_frame _).kept rfl
  | free member => exact kept (release_frame _ _).kept rfl
  | start numWorkers =>
      exact kept ⟨by unfold start; split <;> rfl, by unfold start; split <;> simp [noFailure],
        by unfold start; split <;> simp⟩ rfl
  | stop =>
      exact kept ⟨by unfold Bridge.stop; split <;> rfl, by unfold Bridge.stop; split <;> simp,
        by unfold Bridge.stop; split <;> simp⟩ rfl
  | stopSend =>
      have shutdown := sendShutdown_kept bridge
      exact kept ⟨shutdown.posted, shutdown.noFailure,
        fun created => have sent := shutdown.created created; ⟨sent.1, sent.2, sent.3⟩⟩ rfl
  | stopJoin => exact kept ⟨rfl, id, fun created => ⟨created.1, created.2, created.3⟩⟩ rfl
  | destroy =>
      refine ⟨by simp [destroy, destroyFifo_eq, stepEmits], ?_, fun alive => absurd rfl alive⟩
      rw [Heap.NoFailure, destroy_outcomes]
      exact noFailure
  | fiber found worked =>
      obtain ⟨posted, stillNoFailure, stillCreated⟩ := workerStep_posts noFailure created worked
      exact ⟨by simp [posted, stepEmits, found], stillNoFailure, fun _ => ⟨stillCreated.1,
        stillCreated.2, stillCreated.3⟩⟩

/-! ## The lifecycle -/

/-- A step that leaves the pool, the flag and the control thread alone. -/
structure ControlFrame (before after : Bridge) : Prop where
  pool : after.pool = before.pool
  running : after.running = before.running
  control : after.control = before.control

theorem CallerFrame.controlFrame {before after : Bridge} (frame : CallerFrame before after) :
    ControlFrame before after :=
  ⟨frame.pool, frame.running, frame.control⟩

theorem submit_controlFrame (bridge : Bridge) (node : Option RequestNode) :
    ControlFrame bridge (bridge.submit node) := by
  rcases Heap.alloc_cases bridge.heap with allocated | allocated
  · cases node <;> constructor <;> simp [submit, allocated]
  · constructor <;> simp only [submit, allocated, enqueueRequest] <;> split <;> rfl

theorem sendShutdown_controlFrame (bridge : Bridge) :
    ControlFrame bridge bridge.sendShutdown := by
  unfold sendShutdown enqueueRequest
  repeat' split
  all_goals constructor <;> rfl

theorem workerStep_controlFrame {bridge mid : Bridge} {fiber after : Fiber}
    {event : FiberEvent} (stepped : bridge.workerStep fiber event = some (after, mid)) :
    ControlFrame bridge mid := by
  by_cases dequeuing : fiber = .dequeuing
  · subst dequeuing
    cases workerStep_iff.mp stepped
    obtain ⟨pool, running, control, -⟩ := dispatch_frame bridge
    exact ⟨pool, running, control⟩
  · have frame := (workerStep_iff.mp stepped).postingFrame dequeuing
    exact ⟨frame.pool, frame.running, frame.control⟩

/-- Outside `start()` and `stop()` the pool is empty, and after
`fifo_destroy` the queues are gone as well. -/
structure Settled (bridge : Bridge) : Prop where
  stopped : bridge.control = .idle → bridge.running = false → bridge.pool = []
  destroyed : bridge.control = .destroyed →
    bridge.pool = [] ∧ bridge.requestFifo = none ∧ bridge.completionFifo = none ∧
      bridge.traverseFifo = none ∧ bridge.largeValueFifo = none

theorem fifoCreate_settled (outcomes : List Bool) : (fifoCreate outcomes).Settled :=
  ⟨fun _ _ => rfl, fun destroyed => nomatch destroyed⟩

theorem step_settled {bridge after : Bridge} {label : Label} (settled : bridge.Settled)
    (stepped : bridge.step label = some after) : after.Settled := by
  have destroyed := step_alive stepped
  have framed : ControlFrame bridge after → after.Settled := fun frame =>
    ⟨fun idle stopped => by
      rw [frame.pool]; exact settled.stopped (frame.control ▸ idle) (frame.running ▸ stopped),
      fun gone => absurd (frame.control ▸ gone) destroyed⟩
  cases (step_iff.mp stepped).2 with
  | allocRequest req => exact framed (allocRequest_frame _ _).controlFrame
  | @submit node given handed =>
      have first := (handOver_frame handed).controlFrame
      have second := submit_controlFrame given node
      exact framed ⟨second.pool.trans first.pool, second.running.trans first.running,
        second.control.trans first.control⟩
  | poll queue => exact framed (pollRecord_frame _ _).controlFrame
  | pollLargeValue => exact framed (pollLargeValue_frame _).controlFrame
  | free member => exact framed (release_frame _ _).controlFrame
  | start numWorkers idle =>
      unfold start
      split
      · exact settled
      · exact ⟨fun _ running => (nomatch running), fun gone => nomatch (idle.symm.trans gone)⟩
  | stop =>
      unfold Bridge.stop
      split
      · exact ⟨nofun, nofun⟩
      · exact settled
  | stopSend => exact ⟨nofun, nofun⟩
  | stopJoin => exact ⟨fun _ _ => rfl, nofun⟩
  | destroy idle stopped =>
      exact ⟨nofun, fun _ => ⟨by simpa [destroy, destroyFifo_eq] using settled.stopped idle stopped,
        rfl, rfl, rfl, rfl⟩⟩
  | fiber found worked =>
      have frame := workerStep_controlFrame worked
      refine ⟨fun idle stopped => ?_, fun gone => absurd (frame.control ▸ gone) destroyed⟩
      have empty := settled.stopped (frame.control ▸ idle) (frame.running ▸ stopped)
      simp [empty] at found

end Bridge

end NomadFifo
