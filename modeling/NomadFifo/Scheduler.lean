import NomadFifo.Manager

/-!
# Callers, the controlling thread and the fibers

Three kinds of actors drive the bridge: callers on any thread
(`fifo_alloc_request`, `fifo_submit`, `fifo_poll_*`, `fifo_free_*`, and their
batch forms one slot at a time), the thread that calls `fifo_start`,
`fifo_stop` and `fifo_destroy`, and the worker fibers of the pool.  A run is
any interleaving of their steps, `Bridge.run`.

* A fiber steps from one control point of `worker_fiber` to the next: the
  flag check, the dequeue with its dispatch, and each return of the trie
  collaborator, whose answers are the data of the labels.  The posting calls
  between two such points are made within the step: the pool has one thread,
  and nothing in them yields.
* `stop()` is cut at its points of contact with the fibers: the exchange of
  the flag, each Shutdown request it sends, and the return of
  `pool_.reset()` once every fiber has returned.
* The destructor calls `stop()` first, whose steps are the ones above;
  `destroy` is what follows, on a manager that no longer runs.  Nothing can
  happen after it.
-/

namespace NomadFifo

/-- What a fiber's step waits for. -/
inductive FiberEvent where
  /-- The flag check at the head of the loop, or the dequeue after it. -/
  | advance
  /-- `db_.find` in `process_find` returns this answer, or throws. -/
  | found (result : FindResult)
  /-- `db_.find` in `process_traverse` returns a node (`true`), or an error,
  a null node or an exception (`false`). -/
  | resolved (node : Bool)
  /-- `db_.traverse` calls the machine. -/
  | walk (event : WalkEvent)
  /-- `db_.traverse` returns or throws. -/
  | walkEnd
  deriving DecidableEq

/-- One step of a caller, of the controlling thread, or of a fiber. -/
inductive Label where
  /-- `fifo_alloc_request`, or one slot of `fifo_alloc_request_batch`; the
  caller then writes `req` into the node. -/
  | allocRequest (req : Request)
  /-- `fifo_submit`, or one slot of `fifo_submit_batch`, which may be null. -/
  | submit (node : Option RequestNode)
  /-- `fifo_poll_completion` or `fifo_poll_traverse`, or one slot of their
  batch forms. -/
  | poll (queue : RecordQueue)
  /-- `fifo_poll_large_value`. -/
  | pollLargeValue
  /-- `fifo_free_request`, `fifo_free_completion`, `fifo_free_traverse` or
  `fifo_free_large_value`, or one slot of a batch free. -/
  | free (held : Held)
  | start (numWorkers : Nat)
  /-- `stop()` up to its loop: the exchange of the flag. -/
  | stop
  /-- One turn of the loop of `stop()`. -/
  | stopSend
  /-- `pool_.reset()` returns, and `stop()` with it. -/
  | stopJoin
  | destroy
  | fiber (index : Nat) (event : FiberEvent)

/-- The address of a record a caller holds. -/
def Held.addr : Held → Nat
  | .request node => node.addr
  | .completion node | .traverse node => node.addr
  | .largeValue node => node.addr

/-- The request a fiber is processing. -/
def Fiber.request : Fiber → Option RequestNode
  | .finding node | .resolving node | .walking node _ => some node
  | _ => none

/-- The request `stop()` sends: `alloc_request` zeroes it and the type is
set. -/
def shutdownRequest : Request :=
  { Request.zero with type := RequestType.reqShutdown.code }

namespace Bridge

/-- `std::free`. -/
def free (bridge : Bridge) (addr : Nat) : Bridge :=
  { bridge with heap := bridge.heap.free addr }

/-- `ck_fifo_mpmc_wrapper_enqueue` on the request queue. -/
def enqueueRequest (bridge : Bridge) (entry : Nat) (node : Option RequestNode) : Bridge :=
  match bridge.requestFifo with
  | none => { bridge with leaked := bridge.leaked ++ entry :: node.toList.map RequestNode.addr }
  | some fifo => { bridge with requestFifo := some (fifo.enqueue entry node) }

/-! ## Callers -/

/-- `FifoManager::alloc_request`, the caller writing `req` into the node. -/
def allocRequest (bridge : Bridge) (req : Request) : Bridge :=
  match bridge.heap.alloc with
  | (none, heap) => { bridge with heap }
  | (some addr, heap) => { bridge with heap, held := bridge.held ++ [.request ⟨addr, req⟩] }

/-- The caller gives up a request node it holds; a null slot is nothing to
give up. -/
def handOver (bridge : Bridge) : Option RequestNode → Option Bridge
  | none => some bridge
  | some node =>
      if Held.request node ∈ bridge.held then
        some { bridge with held := bridge.held.erase (.request node) }
      else none

/-- `FifoManager::submit`, and one slot of `submit_batch`: without an entry
the node is freed. -/
def submit (bridge : Bridge) (node : Option RequestNode) : Bridge :=
  match bridge.heap.alloc with
  | (none, heap) =>
      match node with
      | none => { bridge with heap }
      | some node => { bridge with heap := heap.free node.addr }
  | (some entry, heap) =>
      { ({ bridge with heap }.enqueueRequest entry node) with
        submitted := bridge.submitted ++ node.toList }

/-- `poll_completion` and `poll_traverse`: the first record goes to the
caller, and the old head entry is freed. -/
def pollRecord (bridge : Bridge) (queue : RecordQueue) : Bridge :=
  match bridge.recordFifo queue with
  | none => bridge
  | some fifo =>
      match fifo.dequeue with
      | none => bridge
      | some (node, garbage, fifo) =>
          { (bridge.setRecordFifo queue (some fifo)).free garbage with
            held := bridge.held ++ [queue.held node] }

/-- `poll_large_value`. -/
def pollLargeValue (bridge : Bridge) : Bridge :=
  match bridge.largeValueFifo with
  | none => bridge
  | some fifo =>
      match fifo.dequeue with
      | none => bridge
      | some (node, garbage, fifo) =>
          { ({ bridge with largeValueFifo := some fifo }).free garbage with
            held := bridge.held ++ [.largeValue node] }

/-- The `fifo_free_*` functions: `std::free` of a record the caller holds. -/
def release (bridge : Bridge) (held : Held) : Bridge :=
  { bridge with held := bridge.held.erase held }.free held.addr

/-! ## The controlling thread -/

/-- `FifoManager::start`: nothing when running; otherwise at least one
worker, the flag set, and a new pool of fibers at the head of their loop. -/
def start (bridge : Bridge) (numWorkers : Nat) : Bridge :=
  if bridge.running then bridge
  else
    let numWorkers := if numWorkers = 0 then 1 else numWorkers
    { bridge with numWorkers, running := true, pool := List.replicate numWorkers .loop }

/-- The exchange at the top of `FifoManager::stop`: nothing when not running;
otherwise the flag is cleared and one Shutdown request per worker is due. -/
def stop (bridge : Bridge) : Bridge :=
  if bridge.running then { bridge with running := false, control := .stopping bridge.numWorkers }
  else bridge

/-- One turn of the loop of `stop()`: a request node and an entry, or, when
either allocation fails, nothing sent (the node freed if it was
allocated). -/
def sendShutdown (bridge : Bridge) : Bridge :=
  match bridge.heap.alloc with
  | (none, heap) => { bridge with heap }
  | (some node, heap) =>
      match heap.alloc with
      | (none, heap) => { bridge with heap := heap.free node }
      | (some entry, heap) =>
          { bridge with heap }.enqueueRequest entry (some ⟨node, shutdownRequest⟩)

/-- `ck_fifo_mpmc_wrapper_destroy`: `ck_fifo_mpmc_deinit` hands back the
head entry only, which is freed with the wrapper; the entries still queued,
and the nodes they hold, stay allocated. -/
def destroyFifo {α : Type} (bridge : Bridge) (values : α → List Nat) : Option (Fifo α) → Bridge
  | none => bridge
  | some fifo =>
      { (bridge.free fifo.stub).free fifo.wrapper with
        leaked := bridge.leaked ++ fifo.items.flatMap fun item => item.1 :: values item.2 }

/-- Destroying a queue touches the heap and the leaked addresses only. -/
theorem destroyFifo_eq {α : Type} (bridge : Bridge) (values : α → List Nat)
    (fifo : Option (Fifo α)) :
    bridge.destroyFifo values fifo =
      { bridge with
        heap := (fifo.map fun fifo => (bridge.heap.free fifo.stub).free fifo.wrapper).getD bridge.heap
        leaked := bridge.leaked ++
          fifo.toList.flatMap fun fifo => fifo.items.flatMap fun item => item.1 :: values item.2 } := by
  cases fifo <;> simp [destroyFifo, free]

/-- `~FifoManager` after its `stop()`: the four queues are destroyed in
order. -/
def destroy (bridge : Bridge) : Bridge :=
  let destroyed :=
    (((bridge.destroyFifo (fun node => node.toList.map RequestNode.addr) bridge.requestFifo).destroyFifo
      (fun node => [node.addr]) bridge.completionFifo).destroyFifo
        (fun node => [node.addr]) bridge.traverseFifo).destroyFifo
          (fun node => [node.addr]) bridge.largeValueFifo
  { destroyed with
    requestFifo := none, completionFifo := none, traverseFifo := none, largeValueFifo := none
    control := .destroyed }

/-! ## The fibers -/

/-- The loop body of `worker_fiber` after the flag check: dequeue, free the
old head entry, and dispatch on the request type.  An empty queue (after
`yield`), a null value, a type no case names, or a queue that was never
created, sends the fiber back to the flag check; a Shutdown request ends
it. -/
def dispatch (bridge : Bridge) : Fiber × Bridge :=
  match bridge.requestFifo with
  | none => (.loop, bridge)
  | some fifo =>
      match fifo.dequeue with
      | none => (.loop, bridge)
      | some (none, garbage, fifo) => (.loop, { bridge with requestFifo := some fifo }.free garbage)
      | some (some node, garbage, fifo) =>
          let taken :=
            { bridge with requestFifo := some fifo, dequeued := bridge.dequeued ++ [node] }.free
              garbage
          match RequestType.ofCode node.req.type with
          | some .reqFindValue | some .reqFindNode => (.finding node, taken)
          | some .reqTraverse => (.resolving node, taken)
          | some .reqShutdown => (.exited, taken.free node.addr)
          | none => (.loop, taken.free node.addr)

/-- The end of `process_traverse` and the `free_request` after it: the
`TRAVERSE_END` record, then the node freed. -/
def endTraverse (bridge : Bridge) (node : RequestNode) : Bridge :=
  (bridge.postTraverse (traverseEnd node.req)).free node.addr

/-- One step of a fiber: its next control point and the bridge after the
step, or `none` when the event cannot happen where the fiber is. -/
def workerStep (bridge : Bridge) : Fiber → FiberEvent → Option (Fiber × Bridge)
  | .loop, .advance => some (if bridge.running then .dequeuing else .exited, bridge)
  | .dequeuing, .advance => some bridge.dispatch
  | .finding node, .found result =>
      some (.loop, (bridge.performAll (processFind node.req result)).free node.addr)
  | .resolving node, .resolved true => some (.walking node (traverseMachine node.req), bridge)
  | .resolving node, .resolved false => some (.loop, bridge.endTraverse node)
  | .walking node machine, .walk event =>
      some (.walking node (machine.handle event).1, bridge.performAll (machine.handle event).2)
  | .walking node _, .walkEnd => some (.loop, bridge.endTraverse node)
  | _, _ => none

/-- Fiber `index` of the pool takes a step. -/
def runFiber (bridge : Bridge) (index : Nat) (event : FiberEvent) : Option Bridge :=
  match bridge.pool[index]? with
  | none => none
  | some fiber =>
      (bridge.workerStep fiber event).map fun (fiber, after) =>
        { after with pool := after.pool.set index fiber }

/-! ## Runs -/

/-- One step, or `none` when the label cannot happen in this state. -/
def step (bridge : Bridge) (label : Label) : Option Bridge :=
  if bridge.control = .destroyed then none
  else
    match label with
    | .allocRequest req => some (bridge.allocRequest req)
    | .submit node => (bridge.handOver node).map fun given => given.submit node
    | .poll queue => some (bridge.pollRecord queue)
    | .pollLargeValue => some bridge.pollLargeValue
    | .free held => if held ∈ bridge.held then some (bridge.release held) else none
    | .start numWorkers => if bridge.control = .idle then some (bridge.start numWorkers) else none
    | .stop => if bridge.control = .idle then some bridge.stop else none
    | .stopSend =>
        match bridge.control with
        | .stopping (remaining + 1) => some { bridge.sendShutdown with control := .stopping remaining }
        | _ => none
    | .stopJoin =>
        if bridge.control = .stopping 0 ∧ bridge.pool.all (· == .exited) then
          some { bridge with pool := [], numWorkers := 0, control := .idle }
        else none
    | .destroy =>
        if bridge.control = .idle ∧ bridge.running = false then some bridge.destroy else none
    | .fiber index event => bridge.runFiber index event

/-- A sequence of steps. -/
def run (bridge : Bridge) : List Label → Option Bridge
  | [] => some bridge
  | label :: rest => (bridge.step label).bind fun next => next.run rest

@[simp]
theorem run_nil (bridge : Bridge) : bridge.run [] = some bridge := rfl

theorem run_cons (bridge : Bridge) (label : Label) (rest : List Label) :
    bridge.run (label :: rest) = (bridge.step label).bind fun next => next.run rest := rfl

theorem run_append (bridge : Bridge) (first second : List Label) :
    bridge.run (first ++ second) = (bridge.run first).bind fun middle => middle.run second := by
  induction first generalizing bridge with
  | nil => rfl
  | cons label rest inductionHypothesis =>
      simp only [List.cons_append, run_cons, Option.bind_assoc, inductionHypothesis]

end Bridge

end NomadFifo
