import NomadFifo.Batch

/-!
# Requests that `fifo_submit` drops

`FifoManager::submit` frees a request whose queue entry it cannot allocate,
and returns nothing that says so.  The fibers answer only what reaches the
request queue: a fiber posts records for the request it dequeued, with a
traverse machine under that request's id, and a Shutdown request of
`stop()` ends its fiber without a record.  So, whatever allocations fail,
every record on a result queue carries the id of a request that a caller put
on the request queue, and a dropped request is never answered.

* `Bridge.step_traced`: every step keeps this, for every outcome of every
  allocation.
* `unqueued_request_unanswered`: in every run from `fifo_create`, with any
  allocations failing and any `start`, `stop` and `fifo_destroy` calls, no
  record carries an id that no queued request has.
-/

namespace NomadFifo

/-- A fiber works for a request of `submitted`, and a walking machine posts
under that request's id. -/
def Fiber.Traced (submitted : List RequestNode) : Fiber → Prop
  | .finding node | .resolving node => node ∈ submitted
  | .walking node machine => node ∈ submitted ∧ (machine.lo, machine.hi) = node.req.userData
  | _ => True

theorem Fiber.Traced.mono {submitted more : List RequestNode} (grown : submitted ⊆ more) :
    ∀ {fiber : Fiber}, fiber.Traced submitted → fiber.Traced more
  | .finding _, traced | .resolving _, traced => grown traced
  | .walking _ _, traced => ⟨grown traced.1, traced.2⟩
  | .loop, _ | .dequeuing, _ | .exited, _ => trivial

/-- The records of a fiber's step carry the id of the request it works
for. -/
theorem workerEmits_traced {submitted : List RequestNode} {fiber : Fiber}
    (traced : fiber.Traced submitted) (event : FiberEvent) :
    ∀ post ∈ (workerEmits fiber event).filterMap Emit.record,
      ∃ node ∈ submitted, node.req.userData = post.userData := by
  intro post member
  cases fiber <;> cases event <;> simp only [workerEmits, List.filterMap_nil,
    List.not_mem_nil] at member
  case finding.found node result =>
    obtain ⟨large, comp, records, largeOwned, compOwned, -⟩ := processFind_records node.req result
    rw [records] at member
    refine ⟨node, traced, ?_⟩
    rcases List.mem_append.mp member with isLarge | last
    · obtain ⟨value, inside, rfl⟩ := List.mem_map.mp isLarge
      exact (largeOwned value inside).symm
    · rw [List.mem_singleton.mp last]; exact compOwned.symm
  case resolving.resolved node found =>
    cases found <;> simp only [Emit.record, List.filterMap_cons, List.filterMap_nil,
      List.mem_singleton, List.not_mem_nil, Bool.false_eq_true] at member
    exact ⟨node, traced, by rw [member]; rfl⟩
  case walking.walk node machine walkEvent =>
    obtain ⟨-, -, owned⟩ := handle_records machine walkEvent
    exact ⟨node, traced.1, by rw [(owned post member).1, traced.2]⟩
  case walking.walkEnd node machine =>
    simp only [Emit.record, List.filterMap_cons, List.filterMap_nil, List.mem_singleton] at member
    exact ⟨node, traced.1, by rw [member]; rfl⟩

namespace Bridge

/-! ## The records a step enqueues, whatever fails -/

/-- A posting call enqueues its record or nothing. -/
theorem perform_posted (bridge : Bridge) (emit : Emit) :
    ∀ post ∈ (bridge.perform emit).posted, post ∈ bridge.posted ∨ some post = emit.record := by
  intro post member
  cases emit <;> simp only [perform, postCompletion, postTraverse, postRecord, postLargeValue,
    enqueueRecord, enqueueLargeValue, recordFifo, setRecordFifo] at member
  all_goals repeat' split at member
  all_goals simp_all [Emit.record, RecordQueue.post]

theorem performAll_posted (bridge : Bridge) (emits : List Emit) :
    ∀ post ∈ (bridge.performAll emits).posted,
      post ∈ bridge.posted ∨ post ∈ emits.filterMap Emit.record := by
  induction emits generalizing bridge with
  | nil => exact fun post member => .inl member
  | cons emit rest inductionHypothesis =>
      intro post member
      rcases inductionHypothesis (bridge.perform emit) post member with earlier | later
      · rcases perform_posted bridge emit post earlier with old | made
        · exact .inl old
        · exact .inr (List.mem_filterMap.mpr ⟨emit, .head _, made.symm⟩)
      · obtain ⟨source, inside, made⟩ := List.mem_filterMap.mp later
        exact .inr (List.mem_filterMap.mpr ⟨source, .tail _ inside, made⟩)

/-- A fiber's step enqueues some of the records of its posting calls. -/
theorem Worked.posted {bridge mid : Bridge} {fiber next : Fiber} {event : FiberEvent}
    (worked : Worked bridge fiber event next mid) :
    ∀ post ∈ mid.posted,
      post ∈ bridge.posted ∨ post ∈ (workerEmits fiber event).filterMap Emit.record := by
  cases worked with
  | check | resolved => exact fun post member => .inl member
  | dispatch => exact fun post member => .inl ((dispatch_frame bridge).2.2.2.2.1 ▸ member)
  | found node result => exact performAll_posted bridge _
  | unresolved node | walkEnd node _ => rw [endTraverse_eq]; exact performAll_posted bridge _
  | walk node machine event => exact performAll_posted bridge _

/-- Outside `dispatch`, a fiber goes on with the request it works for. -/
theorem Worked.traced {bridge mid : Bridge} {fiber next : Fiber} {event : FiberEvent}
    {submitted : List RequestNode} (worked : Worked bridge fiber event next mid)
    (notDequeuing : fiber ≠ .dequeuing) (traced : fiber.Traced submitted) :
    next.Traced submitted := by
  cases worked with
  | check => split <;> trivial
  | dispatch => exact absurd rfl notDequeuing
  | found | unresolved | walkEnd => trivial
  | resolved => exact ⟨traced, rfl⟩
  | walk node machine event =>
      obtain ⟨lo, hi, -⟩ := handle_records machine event
      exact ⟨traced.1, by rw [lo, hi, traced.2]⟩

/-! ## The invariant -/

/-- Every request a fiber meets, and every record, goes back to a request a
caller put on the request queue: the queue holds such requests and the
Shutdown requests of `stop()`, each fiber works for such a request, and each
record carries the id of one. -/
structure Traced (bridge : Bridge) : Prop where
  queued : ∀ node ∈ bridge.waiting, node ∈ bridge.submitted ∨ node.req = shutdownRequest
  fibers : ∀ fiber ∈ bridge.pool, fiber.Traced bridge.submitted
  posted : ∀ post ∈ bridge.posted, ∃ node ∈ bridge.submitted, node.req.userData = post.userData

theorem fifoCreate_traced (outcomes : List Bool) : (fifoCreate outcomes).Traced := by
  refine ⟨fun node member => ?_, nofun, nofun⟩
  have empty := createFifo_empty (α := Option RequestNode) ⟨0, [], outcomes⟩
  cases created : (createFifo ⟨0, [], outcomes⟩ : Option (Fifo (Option RequestNode)) × Heap).1 <;>
    simp_all [waiting, fifoCreate]

/-- A step that changes neither the fibers nor the records, and adds to the
queue only Shutdown requests and requests it adds to `submitted`. -/
theorem Traced.keep {before after : Bridge} (traced : before.Traced)
    (grown : before.submitted ⊆ after.submitted)
    (queued : ∀ node ∈ after.waiting,
      node ∈ before.waiting ∨ node ∈ after.submitted ∨ node.req = shutdownRequest)
    (pool : ∀ fiber ∈ after.pool, fiber ∈ before.pool ∨ fiber = .loop)
    (posted : after.posted = before.posted) : after.Traced where
  queued node member := by
    rcases queued node member with old | fresh | shutdown
    · exact (traced.queued node old).imp_left (grown ·)
    · exact .inl fresh
    · exact .inr shutdown
  fibers fiber member := by
    rcases pool fiber member with old | rfl
    · exact (traced.fibers fiber old).mono grown
    · trivial
  posted post member := by
    obtain ⟨node, submitted, same⟩ := traced.posted post (posted ▸ member)
    exact ⟨node, grown submitted, same⟩

theorem Traced.of_callerFrame {before after : Bridge} (traced : before.Traced)
    (frame : CallerFrame before after) : after.Traced :=
  traced.keep (frame.submitted ▸ fun _ member => member)
    (fun node member => .inl (by rwa [waiting, frame.requestFifo] at member))
    (fun fiber member => .inl (frame.pool ▸ member)) frame.posted

/-- Enqueueing a slot on the request queue adds its request, if any, when
the queue exists. -/
theorem enqueueRequest_waiting (bridge : Bridge) (entry : Nat) (slot : Option RequestNode) :
    (bridge.enqueueRequest entry slot).waiting =
      bridge.waiting ++ (if bridge.requestFifo.isSome then slot.toList else []) := by
  unfold enqueueRequest
  split <;> rename_i isFifo <;> cases slot <;> simp [waiting, Fifo.enqueue, isFifo]

/-- `submit` queues the request it adds to `submitted`, or drops it. -/
theorem Traced.submit {bridge : Bridge} (traced : bridge.Traced) (slot : Option RequestNode) :
    (bridge.submit slot).Traced := by
  have pool : ∀ fiber ∈ (bridge.submit slot).pool, fiber ∈ bridge.pool ∨ fiber = .loop :=
    fun fiber member => .inl ((submit_controlFrame bridge slot).pool ▸ member)
  have posted := (submit_kept bridge slot).posted
  rcases (submit_request_side bridge slot).2.2 with ⟨-, waiting, submitted, -⟩ |
    ⟨-, waiting, submitted, -⟩
  · exact traced.keep (submitted ▸ fun _ => id) (fun _ member => .inl (waiting ▸ member)) pool
      posted
  · refine traced.keep (submitted ▸ List.subset_append_left _ _) (fun node member => ?_) pool posted
    rcases List.mem_append.mp (waiting ▸ member) with old | added
    · exact .inl old
    · exact .inr (.inl (submitted ▸ List.mem_append_right _ (by split at added <;> simp_all)))

/-- A turn of `stop()` queues a Shutdown request or nothing. -/
theorem sendShutdown_waiting (bridge : Bridge) :
    ∀ node ∈ bridge.sendShutdown.waiting, node ∈ bridge.waiting ∨ node.req = shutdownRequest := by
  intro node member
  unfold Bridge.sendShutdown at member
  repeat' split at member
  · exact .inl member
  · exact .inl member
  · rcases List.mem_append.mp (enqueueRequest_waiting _ _ _ ▸ member) with old | sent
    · exact .inl old
    · exact .inr (by split at sent <;> simp_all)

/-- `dispatch` takes the head of the queue; a fiber that goes on with it
works for a queued request, since a Shutdown request ends the fiber. -/
theorem Traced.dispatch {bridge : Bridge} (traced : bridge.Traced) :
    (∀ node ∈ bridge.dispatch.2.waiting, node ∈ bridge.waiting) ∧
      bridge.dispatch.1.Traced bridge.submitted := by
  unfold Bridge.dispatch
  rcases isFifo : bridge.requestFifo with _ | ⟨wrapper, stub, _ | ⟨⟨entry, _ | node⟩, rest⟩⟩ <;>
    simp only [Fifo.dequeue]
  · exact ⟨fun _ member => member, trivial⟩
  · exact ⟨fun _ member => member, trivial⟩
  · exact ⟨fun _ member => by simpa [waiting, isFifo, free] using member, trivial⟩
  · have head : node ∈ bridge.submitted ∨ node.req = shutdownRequest :=
      traced.queued node (by simp [waiting, isFifo])
    have later : ∀ other ∈ rest.filterMap Prod.snd, other ∈ bridge.waiting := fun other member => by
      simp only [waiting, isFifo, List.filterMap_cons]
      exact List.mem_cons_of_mem _ member
    have notShutdown : RequestType.ofCode node.req.type ≠ some .reqShutdown →
        node ∈ bridge.submitted := fun kind =>
      head.resolve_right fun shutdown => kind (by rw [shutdown]; rfl)
    split <;> rename_i kind
    all_goals refine ⟨fun other member => later other (by simpa [waiting, free] using member), ?_⟩
    all_goals first | trivial | exact notShutdown (by rw [kind]; decide)

/-- A fiber's step keeps the invariant. -/
theorem Traced.fiber {bridge mid : Bridge} {index : Nat} {fiber next : Fiber} {event : FiberEvent}
    (traced : bridge.Traced) (found : bridge.pool[index]? = some fiber)
    (worked : Worked bridge fiber event next mid) :
    ({ mid with pool := mid.pool.set index next } : Bridge).Traced := by
  have posted := worked.posted
  have submitted := workerStep_submitted (workerStep_iff.mpr worked)
  have fiberTraced := traced.fibers fiber (List.mem_iff_getElem?.mpr ⟨index, found⟩)
  obtain ⟨pool, waiting, continues⟩ : mid.pool = bridge.pool ∧
      (∀ node ∈ mid.waiting, node ∈ bridge.waiting) ∧ next.Traced bridge.submitted := by
    by_cases dequeuing : fiber = .dequeuing
    · subst dequeuing
      cases worked
      exact ⟨(dispatch_frame bridge).1, traced.dispatch⟩
    · have frame := worked.postingFrame dequeuing
      exact ⟨frame.pool, fun node member => by rwa [Bridge.waiting, frame.requestFifo] at member,
        worked.traced dequeuing fiberTraced⟩
  refine ⟨fun node member => submitted ▸ traced.queued node (waiting node member),
    fun other member => ?_, fun post member => ?_⟩
  · rcases List.mem_or_eq_of_mem_set member with old | rfl
    · exact submitted ▸ traced.fibers other (pool ▸ old)
    · exact submitted ▸ continues
  · rw [submitted]
    rcases posted post member with old | new
    · exact traced.posted post old
    · exact workerEmits_traced fiberTraced event post new

theorem step_traced {bridge after : Bridge} {label : Label} (traced : bridge.Traced)
    (stepped : bridge.step label = some after) : after.Traced := by
  have grown := (step_submitted stepped).subset
  cases (step_iff.mp stepped).2 with
  | allocRequest req => exact traced.of_callerFrame (allocRequest_frame bridge req)
  | submit handed => exact (traced.of_callerFrame (handOver_frame handed)).submit _
  | poll queue => exact traced.of_callerFrame (pollRecord_frame bridge queue)
  | pollLargeValue => exact traced.of_callerFrame (pollLargeValue_frame bridge)
  | free member => exact traced.of_callerFrame (release_frame bridge _)
  | start numWorkers =>
      unfold Bridge.start
      split
      · exact traced
      · exact traced.keep (fun _ member => member) (fun _ member => .inl member)
          (fun fiber member => .inr (List.eq_of_mem_replicate member)) rfl
  | stop =>
      unfold Bridge.stop
      split
      · exact traced.keep (fun _ member => member) (fun _ member => .inl member)
          (fun _ member => .inl member) rfl
      · exact traced
  | stopSend =>
      exact traced.keep grown
        (fun node member => (sendShutdown_waiting bridge node member).imp_right .inr)
        (fun fiber member => .inl ((sendShutdown_controlFrame bridge).pool ▸ member))
        (sendShutdown_kept bridge).posted
  | stopJoin => exact traced.keep grown (fun _ member => .inl member) nofun rfl
  | destroy =>
      exact traced.keep grown (by simp [waiting, destroy])
        (fun fiber member => .inl (by simpa [destroy, destroyFifo_eq] using member))
        (by simp [destroy, destroyFifo_eq])
  | fiber found worked => exact traced.fiber found (workerStep_iff.mp worked)

end Bridge

/-- No record answers a request that never reached the request queue.  In
every run from `fifo_create`, whatever allocations fail and whatever
`start`, `stop` and `fifo_destroy` calls come between, a record with id `id`
is enqueued only if a request with that id was put on the request queue; in
particular a request that `fifo_submit` frees because the allocation of its
entry failed is never answered, unless a queued request shares its id. -/
theorem unqueued_request_unanswered {outcomes : List Bool} {labels : List Label}
    {final : Bridge} (ran : (fifoCreate outcomes).run labels = some final)
    {id : UInt64 × UInt64} (unqueued : ∀ node ∈ final.submitted, node.req.userData ≠ id) :
    recordsFor final.posted id = [] := by
  have traced : final.Traced :=
    Bridge.run_induction (fun _ _ _ (_ : True) traced stepped => Bridge.step_traced traced stepped)
      (fun _ _ => trivial) (Bridge.fifoCreate_traced outcomes) ran
  refine List.filter_eq_nil_iff.mpr fun post member carries => ?_
  obtain ⟨node, queued, same⟩ := traced.posted post member
  exact unqueued node queued (same.trans (of_decide_eq_true carries))

/-- `start(1)`, then a Find request with id 1 that `fifo_submit` frees because
the allocation of its entry fails (after the eight of `fifo_create` and the
one of the node), and the fiber's flag check and empty dequeue. -/
def droppedFindRun : List Label :=
  [.start 1,
    .allocRequest { Request.zero with type := RequestType.reqFindValue.code, userDataLo := 1 },
    .submit (some ⟨8, { Request.zero with type := RequestType.reqFindValue.code, userDataLo := 1 }⟩),
    .fiber 0 .advance, .fiber 0 .advance]

theorem unqueued_request_unanswered_dropped :
    ∃ final, (fifoCreate (List.replicate 9 true ++ [false])).run droppedFindRun = some final ∧
      (∀ node ∈ final.submitted, node.req.userData ≠ (1, 0)) ∧
      recordsFor final.posted (1, 0) = [] :=
  ⟨_, rfl, by decide,
    @unqueued_request_unanswered (List.replicate 9 true ++ [false]) droppedFindRun _ rfl _
      (by decide)⟩

end NomadFifo
