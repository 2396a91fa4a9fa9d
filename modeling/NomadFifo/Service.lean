import NomadFifo.Lifecycle
import NomadFifo.RequestLife

/-!
# The fibers serve the request queue

While the flag is set, a fiber at the head of its loop in `worker_fiber`
dequeues the oldest request, runs `process_find` or `process_traverse` on
it, frees it and comes back to the flag check; a Shutdown request ends the
fiber instead.  Whatever the trie answers (`Answers`), this is enough for the
queue to drain.

* `Bridge.Solo`: what fiber `index` leaves behind when it has stepped by
  itself: only its control point and the records it posted have changed.
* `Bridge.serveHead`: one turn of the loop takes the head of the queue into
  the dequeued history and posts the records of the request's processor.
* `requestQueue_drained`: from every state with the flag set, fibers at the
  flag check, more of them than there are Shutdown requests queued, serve
  every queued request in queue order and leave the queue empty.
-/

namespace NomadFifo

/-- What the trie engine answers the fibers: `db_.find` for the key of a Find
request, and the subtree the prefix of a Traverse request resolves to, if
any, which `db_.traverse` then walks to its end. -/
structure Answers where
  lookup : Request → FindResult
  subtree : Request → Option Trie

/-- A queued value that ends the fiber taking it: a Shutdown request. -/
def endsFiber (value : Option RequestNode) : Bool :=
  value.any fun node => RequestType.ofCode node.req.type == some .reqShutdown

/-- The control point `dispatch` sends a fiber to when it takes `value`. -/
def Fiber.taking : Option RequestNode → Fiber
  | none => .loop
  | some node =>
      match RequestType.ofCode node.req.type with
      | some .reqFindValue | some .reqFindNode => .finding node
      | some .reqTraverse => .resolving node
      | some .reqShutdown => .exited
      | none => .loop

namespace Answers

/-- The steps of fiber `index` that serve `node` once it has taken it: the
lookup answered, or the prefix resolved and the subtree walked. -/
def steps (answers : Answers) (index : Nat) (node : RequestNode) : List Label :=
  match RequestType.ofCode node.req.type with
  | some .reqFindValue | some .reqFindNode => [.fiber index (.found (answers.lookup node.req))]
  | some .reqTraverse =>
      match answers.subtree node.req with
      | none => [.fiber index (.resolved false)]
      | some trie =>
          .fiber index (.resolved true) ::
            ((trie.walk none).map fun event => .fiber index (.walk event)) ++
              [.fiber index .walkEnd]
  | some .reqShutdown | none => []

/-- The posting calls made serving `node`: those of `process_find` or of
`process_traverse` against the answers. -/
def emits (answers : Answers) (node : RequestNode) : List Emit :=
  match RequestType.ofCode node.req.type with
  | some .reqFindValue | some .reqFindNode => processFind node.req (answers.lookup node.req)
  | some .reqTraverse => processTraverse node.req (answers.subtree node.req)
  | some .reqShutdown | none => []

/-- One turn of the loop of fiber `index`: the flag check, the dequeue of
`value`, and the steps serving it. -/
def serve (answers : Answers) (index : Nat) (value : Option RequestNode) : List Label :=
  .fiber index .advance :: .fiber index .advance :: value.toList.flatMap (answers.steps index)

/-- The fibers `ready` serve the queued values in order, each until it takes
a Shutdown request. -/
def drain (answers : Answers) : List Nat → List (Option RequestNode) → List Label
  | [], _ | _, [] => []
  | index :: ready, value :: queued =>
      answers.serve index value ++
        answers.drain (if endsFiber value then ready else index :: ready) queued

end Answers

namespace Bridge

/-- Fiber `index` has moved to `fiber` and made the posting calls `emits`;
the request queue, the flag, the control thread, the dequeued history and
the other fibers are as they were. -/
structure Solo (index : Nat) (fiber : Fiber) (emits : List Emit) (before after : Bridge) :
    Prop where
  requestFifo : after.requestFifo = before.requestFifo
  pool : after.pool = before.pool.set index fiber
  running : after.running = before.running
  control : after.control = before.control
  dequeued : after.dequeued = before.dequeued
  posted : before.heap.NoFailure → before.ResultQueuesExist →
    after.posted = before.posted ++ emits.filterMap Emit.record ∧ after.heap.NoFailure ∧
      after.ResultQueuesExist

theorem Solo.refl {bridge : Bridge} {index : Nat} {fiber : Fiber}
    (found : bridge.pool[index]? = some fiber) : Solo index fiber [] bridge bridge :=
  ⟨rfl, (set_of_getElem? found).symm, rfl, rfl, rfl,
    fun noFailure created => ⟨by simp, noFailure, created⟩⟩

theorem Solo.trans {index : Nat} {first second : Fiber} {emits more : List Emit}
    {before mid after : Bridge} (early : Solo index first emits before mid)
    (late : Solo index second more mid after) :
    Solo index second (emits ++ more) before after := by
  refine ⟨late.requestFifo.trans early.requestFifo, by rw [late.pool, early.pool, List.set_set],
    late.running.trans early.running, late.control.trans early.control,
    late.dequeued.trans early.dequeued, fun noFailure created => ?_⟩
  obtain ⟨posted, midNoFailure, midCreated⟩ := early.posted noFailure created
  obtain ⟨morePosted, afterNoFailure, afterCreated⟩ := late.posted midNoFailure midCreated
  exact ⟨by rw [morePosted, posted, List.filterMap_append, List.append_assoc], afterNoFailure,
    afterCreated⟩

theorem run_singleton {bridge after : Bridge} {label : Label}
    (stepped : bridge.step label = some after) : bridge.run [label] = some after := by
  rw [run_cons, stepped]; rfl

/-- A step of fiber `index` outside `dispatch` is serving: the fiber moves and
posts the calls of its step. -/
theorem step_solo {bridge mid : Bridge} {index : Nat} {fiber next : Fiber}
    {event : FiberEvent} (alive : bridge.control ≠ .destroyed)
    (found : bridge.pool[index]? = some fiber) (worked : Worked bridge fiber event next mid)
    (notDequeuing : fiber ≠ .dequeuing) :
    ∃ after, bridge.step (.fiber index event) = some after ∧
      Solo index next (workerEmits fiber event) bridge after := by
  have frame := worked.postingFrame notDequeuing
  refine ⟨_, step_iff.mpr ⟨alive, .fiber found (workerStep_iff.mpr worked)⟩, frame.requestFifo,
    by simp [frame.pool], frame.running, frame.control, frame.dequeued, fun noFailure created => ?_⟩
  obtain ⟨posted, stillNoFailure, stillCreated⟩ :=
    workerStep_posts noFailure created (workerStep_iff.mpr worked)
  exact ⟨posted, stillNoFailure, stillCreated.1, stillCreated.2, stillCreated.3⟩

/-- Driven through the calls `events`, a walking fiber runs its machine on
them and posts what the machine sends. -/
theorem run_walk_solo (node : RequestNode) :
    ∀ (events : List WalkEvent) {bridge : Bridge} {index : Nat} {machine : FifoTraverseMachine},
      bridge.control ≠ .destroyed → bridge.pool[index]? = some (.walking node machine) →
      ∃ after, bridge.run (events.map fun event => .fiber index (.walk event)) = some after ∧
        Solo index (.walking node (machine.run events).1) (machine.run events).2 bridge after
  | [], _, _, _, _, found => ⟨_, rfl, Solo.refl found⟩
  | event :: rest, bridge, index, machine, alive, found => by
      obtain ⟨mid, stepped, serving⟩ := step_solo alive found (.walk node machine event) nofun
      have bound := (List.getElem?_eq_some_iff.mp found).1
      obtain ⟨after, ran, more⟩ := run_walk_solo node rest (serving.control ▸ alive)
        (by rw [serving.pool]; exact List.getElem?_set_self bound)
      exact ⟨after, by rw [List.map_cons, run_cons, stepped, Option.some_bind, ran],
        serving.trans more⟩

/-- `dispatch` at the head `(entry, value)` of the queue: the fiber goes where
`value` sends it, the queue loses its head and the dequeued history gains
the request. -/
theorem dispatch_head {bridge : Bridge} {fifo : Fifo (Option RequestNode)} {entry : Nat}
    {value : Option RequestNode} {rest : List (Nat × Option RequestNode)}
    (queue : bridge.requestFifo = some fifo) (items : fifo.items = (entry, value) :: rest) :
    bridge.dispatch.1 = Fiber.taking value ∧
      bridge.dispatch.2.requestFifo = some { fifo with stub := entry, items := rest } ∧
      bridge.dispatch.2.dequeued = bridge.dequeued ++ value.toList := by
  have taken : fifo.dequeue = some (value, fifo.stub, { fifo with stub := entry, items := rest }) := by
    simp [Fifo.dequeue, items]
  rcases value with _ | node
  · simp [dispatch, queue, taken, Fiber.taking, free]
  · simp only [dispatch, queue, taken, Fiber.taking]
    split <;> simp_all [free]

/-- The flag check and the dequeue: fiber `index` takes the head of the
queue. -/
theorem run_take {bridge : Bridge} {index : Nat} {fifo : Fifo (Option RequestNode)} {entry : Nat}
    {value : Option RequestNode} {rest : List (Nat × Option RequestNode)}
    (alive : bridge.control ≠ .destroyed) (flag : bridge.running = true)
    (atLoop : bridge.pool[index]? = some .loop) (queue : bridge.requestFifo = some fifo)
    (items : fifo.items = (entry, value) :: rest) :
    ∃ after, bridge.run [.fiber index .advance, .fiber index .advance] = some after ∧
      Solo index (Fiber.taking value) []
        { bridge with requestFifo := some { fifo with stub := entry, items := rest }
                      dequeued := bridge.dequeued ++ value.toList } after := by
  obtain ⟨checked, checkStep, check⟩ := step_solo alive atLoop .check nofun
  have bound := (List.getElem?_eq_some_iff.mp atLoop).1
  have dequeuing : checked.pool[index]? = some .dequeuing := by
    rw [check.pool, flag]; exact List.getElem?_set_self bound
  obtain ⟨fiber, head, dequeued⟩ :=
    dispatch_head (check.requestFifo.trans queue) items
  obtain ⟨pool, running, control, -, posted, outcomes, exist⟩ := dispatch_frame checked
  refine ⟨{ checked.dispatch.2 with pool := checked.dispatch.2.pool.set index checked.dispatch.1 },
    ?_, head, ?_, running.trans check.running, control.trans check.control,
    by rw [dequeued, check.dequeued], fun noFailure created => ?_⟩
  · rw [run_cons, checkStep, Option.some_bind]
    exact run_singleton (step_iff.mpr ⟨check.control ▸ alive,
      .fiber dequeuing (workerStep_iff.mpr .dispatch)⟩)
  · show checked.dispatch.2.pool.set index checked.dispatch.1 = bridge.pool.set index _
    rw [pool, check.pool, fiber, List.set_set]
  · obtain ⟨checkPosted, checkNoFailure, checkCreated⟩ :=
      check.posted noFailure ⟨created.1, created.2, created.3⟩
    have dispatched := exist.mpr checkCreated
    exact ⟨by simpa [posted, workerEmits] using checkPosted,
      by simpa [Heap.NoFailure, outcomes] using checkNoFailure,
      dispatched.1, dispatched.2, dispatched.3⟩

/-- The steps serving a request the fiber has taken bring it back to the
flag check, or leave it returned after a Shutdown request, having posted the
calls of the request's processor. -/
theorem run_steps (answers : Answers) {bridge : Bridge} {index : Nat} {node : RequestNode}
    (alive : bridge.control ≠ .destroyed)
    (taken : bridge.pool[index]? = some (Fiber.taking (some node))) :
    ∃ after, bridge.run (answers.steps index node) = some after ∧
      Solo index (if endsFiber (some node) then .exited else .loop) (answers.emits node)
        bridge after := by
  rcases kind : RequestType.ofCode node.req.type with _ | (_ | _ | _ | _) <;>
    simp only [Answers.steps, Answers.emits, endsFiber, Fiber.taking, kind, Option.any_some]
      at taken ⊢
  case none => exact ⟨bridge, rfl, Solo.refl taken⟩
  case some.reqFindValue | some.reqFindNode =>
    obtain ⟨after, stepped, serving⟩ :=
      step_solo alive taken (.found node (answers.lookup node.req)) nofun
    exact ⟨after, run_singleton stepped, serving⟩
  case some.reqShutdown => exact ⟨bridge, rfl, Solo.refl taken⟩
  case some.reqTraverse =>
    cases answers.subtree node.req with
    | none =>
        obtain ⟨after, stepped, serving⟩ := step_solo alive taken (.unresolved node) nofun
        exact ⟨after, run_singleton stepped, by simpa [processTraverse] using serving⟩
    | some trie =>
        obtain ⟨resolved, resolveStep, resolve⟩ := step_solo alive taken (.resolved node) nofun
        have bound := (List.getElem?_eq_some_iff.mp taken).1
        obtain ⟨walked, walkRun, walk⟩ := run_walk_solo node (trie.walk none)
          (resolve.control ▸ alive) (by rw [resolve.pool]; exact List.getElem?_set_self bound)
        obtain ⟨after, endStep, ended⟩ := step_solo (walk.control.trans resolve.control ▸ alive)
          (by rw [walk.pool, resolve.pool, List.set_set]; exact List.getElem?_set_self bound)
          (.walkEnd node ((traverseMachine node.req).run (trie.walk none)).1) nofun
        refine ⟨after, ?_, ?_⟩
        · dsimp only
          rw [run_append, run_cons, resolveStep, Option.some_bind, walkRun, Option.some_bind,
            run_singleton endStep]
        · simpa [processTraverse, traverse_fifoMachine, workerEmits] using
            (resolve.trans walk).trans ended

/-- One turn of the loop: fiber `index`, at the flag check with the flag set,
takes the head `value` of the request queue and serves it with the trie's
answers.  Against the bridge with the head taken off the queue and into the
dequeued history, the fiber is back at the flag check, or returned after a
Shutdown request, and has posted the calls of the request's processor. -/
theorem serveHead (answers : Answers) {bridge : Bridge} {index : Nat}
    {fifo : Fifo (Option RequestNode)} {entry : Nat} {value : Option RequestNode}
    {rest : List (Nat × Option RequestNode)} (alive : bridge.control ≠ .destroyed)
    (flag : bridge.running = true) (atLoop : bridge.pool[index]? = some .loop)
    (queue : bridge.requestFifo = some fifo) (items : fifo.items = (entry, value) :: rest) :
    ∃ after, bridge.run (answers.serve index value) = some after ∧
      Solo index (if endsFiber value then .exited else .loop) (value.toList.flatMap answers.emits)
        { bridge with requestFifo := some { fifo with stub := entry, items := rest }
                      dequeued := bridge.dequeued ++ value.toList } after := by
  obtain ⟨taken, takeRun, take⟩ := run_take alive flag atLoop queue items
  cases value with
  | none => exact ⟨taken, takeRun, take⟩
  | some node =>
      have found : taken.pool[index]? = some (Fiber.taking (some node)) := by
        rw [take.pool]; exact List.getElem?_set_self (List.getElem?_eq_some_iff.mp atLoop).1
      obtain ⟨after, stepsRun, steps⟩ :=
        run_steps answers (by rw [take.control]; exact alive) found
      refine ⟨after, ?_, ?_⟩
      · rw [show answers.serve index (some node) =
            [.fiber index .advance, .fiber index .advance] ++ answers.steps index node by
            simp [Answers.serve], run_append, takeRun, Option.some_bind, stepsRun]
      · rw [show (some node).toList.flatMap answers.emits = [] ++ answers.emits node by simp]
        exact take.trans steps

/-- Fibers `ready` at the flag check, with the flag set and fewer Shutdown
requests among `items` than fibers, take each of `items` in turn and serve
it: the queue ends empty. -/
theorem run_drain (answers : Answers) :
    ∀ (items : List (Nat × Option RequestNode)) {bridge : Bridge}
      {fifo : Fifo (Option RequestNode)} {ready : List Nat},
      bridge.control ≠ .destroyed → bridge.running = true → bridge.requestFifo = some fifo →
      fifo.items = items → ready.Nodup → (∀ index ∈ ready, bridge.pool[index]? = some .loop) →
      items.countP (fun item => endsFiber item.2) < ready.length →
      ∃ after, bridge.run (answers.drain ready (items.map Prod.snd)) = some after ∧
        after.requestFifo.map Fifo.items = some [] ∧
        after.dequeued = bridge.dequeued ++ items.filterMap Prod.snd ∧
        (bridge.heap.NoFailure → bridge.ResultQueuesExist →
          after.posted = bridge.posted ++
            ((items.filterMap Prod.snd).flatMap answers.emits).filterMap Emit.record)
  | [], bridge, _, ready, _, _, queue, items, _, _, _ =>
      ⟨bridge, by cases ready <;> rfl, by simp [queue, items], by simp, fun _ _ => by simp⟩
  | (entry, value) :: rest, bridge, fifo, ready, alive, flag, queue, items, distinct, atLoop,
      enough => by
      obtain _ | ⟨index, others⟩ := ready
      · simp at enough
      have fresh := (List.nodup_cons.mp distinct).1
      obtain ⟨mid, serveRun, serving⟩ :=
        serveHead answers alive flag (atLoop index (.head _)) queue items
      have bound := (List.getElem?_eq_some_iff.mp (atLoop index (.head _))).1
      have loops : ∀ other ∈ (if endsFiber value then others else index :: others),
          mid.pool[other]? = some .loop := by
        intro other member
        rw [serving.pool]
        by_cases same : index = other
        · subst same
          cases ends : endsFiber value <;> simp only [ends] at member ⊢
          · exact List.getElem?_set_self bound
          · exact absurd member fresh
        · rw [List.getElem?_set_ne same]
          exact atLoop other (by split at member <;> simp_all)
      have counted : rest.countP (fun item => endsFiber item.2) <
          (if endsFiber value then others else index :: others).length := by
        rw [List.countP_cons] at enough
        cases ends : endsFiber value <;> simp [ends] at enough ⊢ <;> omega
      obtain ⟨after, drainRun, empty, dequeued, posted⟩ :=
        run_drain answers rest (by rw [serving.control]; exact alive) (serving.running.trans flag)
          serving.requestFifo rfl (by split; exacts [(List.nodup_cons.mp distinct).2, distinct])
          loops counted
      refine ⟨after, ?_, empty, ?_, fun noFailure created => ?_⟩
      · rw [show answers.drain (index :: others) (((entry, value) :: rest).map Prod.snd) =
            answers.serve index value ++ answers.drain
              (if endsFiber value then others else index :: others) (rest.map Prod.snd) from rfl,
          run_append, serveRun, Option.some_bind, drainRun]
      · cases value <;> simp [dequeued, serving.dequeued]
      · obtain ⟨midPosted, midNoFailure, midCreated⟩ :=
          serving.posted noFailure ⟨created.1, created.2, created.3⟩
        cases value <;> simp [posted midNoFailure midCreated, midPosted]

end Bridge

/-- The fibers drain the request queue.  From every state with the flag set,
whatever the trie answers: fibers `ready` at the flag check, more of them
than there are Shutdown requests queued, take the queued requests one after
another and serve them, each until it takes a Shutdown request.  Every step
of that schedule can happen, the queue ends empty, the requests taken are
the waiting ones in queue order, and when no allocation fails the records
posted are those of the requests' processors, in the same order. -/
theorem requestQueue_drained (answers : Answers) {bridge : Bridge}
    {fifo : Fifo (Option RequestNode)} {ready : List Nat} (alive : bridge.control ≠ .destroyed)
    (flag : bridge.running = true) (queue : bridge.requestFifo = some fifo)
    (distinct : ready.Nodup) (atLoop : ∀ index ∈ ready, bridge.pool[index]? = some .loop)
    (enough : fifo.items.countP (fun item => endsFiber item.2) < ready.length) :
    ∃ after, bridge.run (answers.drain ready (fifo.items.map Prod.snd)) = some after ∧
      after.requestFifo.map Fifo.items = some [] ∧
      after.dequeued = bridge.dequeued ++ bridge.waiting ∧
      (bridge.heap.NoFailure → bridge.ResultQueuesExist →
        after.posted = bridge.posted ++ (bridge.waiting.flatMap answers.emits).filterMap Emit.record) := by
  rw [show bridge.waiting = fifo.items.filterMap Prod.snd by simp [Bridge.waiting, queue]]
  exact Bridge.run_drain answers fifo.items alive flag queue rfl distinct atLoop enough

/-- A Find request as a caller writes it. -/
def findRequest : Request :=
  { Request.zero with type := RequestType.reqFindValue.code }

/-- `start(1)`, then a Find request allocated and submitted. -/
def oneFindRun : List Label :=
  [.start 1, .allocRequest findRequest, .submit (some ⟨8, findRequest⟩)]

/-- After the run above, the only fiber drains the queue, the trie finding
nothing. -/
theorem requestQueue_drained_oneFind :
    ∃ bridge fifo, (fifoCreate []).run oneFindRun = some bridge ∧ bridge.requestFifo = some fifo ∧
      ∃ after, bridge.run ((Answers.mk (fun _ => .cursor none) fun _ => none).drain [0]
          (fifo.items.map Prod.snd)) = some after ∧
        after.requestFifo.map Fifo.items = some [] ∧
        after.dequeued = bridge.dequeued ++ bridge.waiting ∧
        (bridge.heap.NoFailure → bridge.ResultQueuesExist →
          after.posted = bridge.posted ++ (bridge.waiting.flatMap
            (Answers.mk (fun _ => .cursor none) fun _ => none).emits).filterMap Emit.record) :=
  ⟨_, _, rfl, rfl, requestQueue_drained _ (by decide) rfl rfl (by decide) (by decide) (by decide)⟩

end NomadFifo
