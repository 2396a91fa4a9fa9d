import NomadFifo.Steps

/-!
# The life of a request

A request a caller submits waits on the request queue, is taken off it by
one fiber, and the records that carry its id are the records of the posting
calls that fiber makes for it: `process_find` posts its completion, and a
traversal posts its `TRAVERSE_MORE` records, each large value right before
its record, and then its `TRAVERSE_END`.  With the ids of the submitted
requests pairwise distinct, `Bridge.Lives` says this of every request at
once: where it is (waiting, processed by a fiber, or finished) fixes its
records.  Every step of a caller, of `start` and of a fiber keeps it when no
allocation fails (`Bridge.step_serving`), whatever the interleaving.

Two results follow, for every run without `stop()` or `fifo_destroy`: what
the completion queue carries for the Find requests (`findRequests_answered`),
and the shape of the records of a traversal (`traverse_records_shape`).
-/

namespace NomadFifo

/-! ## The records of one id -/

/-- The records with id `id`, in the order they were enqueued. -/
def recordsFor (posts : List Post) (id : UInt64 × UInt64) : List Post :=
  posts.filter fun post => post.userData = id

theorem recordsFor_append (first second : List Post) (id : UInt64 × UInt64) :
    recordsFor (first ++ second) id = recordsFor first id ++ recordsFor second id :=
  List.filter_append _ _

/-- Records that all carry the id `owner`. -/
theorem recordsFor_owned {posts : List Post} {owner : UInt64 × UInt64}
    (owned : ∀ post ∈ posts, post.userData = owner) (id : UInt64 × UInt64) :
    recordsFor posts id = if owner = id then posts else [] := by
  unfold recordsFor
  split
  · exact List.filter_eq_self.mpr fun post member => by simp [owned post member, *]
  · exact List.filter_eq_nil_iff.mpr fun post member => by simp [owned post member, *]

/-- The completion a record of the completion queue carries. -/
def Post.completionRecord : Post → Option Completion
  | .completion comp => some comp
  | _ => none

/-- A record a walk posts: `TRAVERSE_MORE`, or a large value. -/
def Post.IsWalkRecord : Post → Bool
  | .traverse comp => comp.status == .statusTraverseMore
  | .largeValue _ => true
  | .completion _ => false

/-- The records `process_find` posts: large values, then one completion
with status Ok, NotFound or Error, all with the request's id. -/
theorem processFind_records (req : Request) (result : FindResult) :
    ∃ (large : List LargeValue) (comp : Completion),
      (processFind req result).filterMap Emit.record =
          large.map Post.largeValue ++ [.completion comp] ∧
        (∀ value ∈ large, value.userData = req.userData) ∧ comp.userData = req.userData ∧
      (comp.status = .statusOk ∨ comp.status = .statusNotFound ∨
        comp.status = .statusError) := by
  let comp := Completion.blank req.userDataLo req.userDataHi
  rcases result with _ | _ | ⟨_ | node⟩
  · exact ⟨[], { comp with status := .statusError }, rfl, nofun, rfl, .inr (.inr rfl)⟩
  · exact ⟨[], { comp with status := .statusError }, rfl, nofun, rfl, .inr (.inr rfl)⟩
  · exact ⟨[], { comp with status := .statusNotFound }, rfl, nofun, rfl, .inr (.inl rfl)⟩
  · cases hasValue : node.value with
    | none =>
        exact ⟨[], { comp with status := .statusNotFound },
          by simp [processFind, hasValue, Emit.record], nofun, rfl, .inr (.inl rfl)⟩
    | some value =>
        refine ⟨if inlineCapacity < value.length ∧ value.length ≤ uint32Max then
          [⟨req.userDataLo, req.userDataHi, UInt32.ofNat value.length, value⟩] else [],
          foundCompletion req node value, by
          simp [processFind, hasValue, List.filterMap_append, filterMap_largeValueEmits,
            Emit.record], fun large member => ?_, foundCompletion_userData _ _ _, .inl ?_⟩
        · split at member <;> simp_all [LargeValue.userData, Request.userData]
        · unfold foundCompletion; split <;> exact Completion.withValue_status _ value

/-- `process_find` posts exactly one completion and no traverse record. -/
theorem processFind_completionRecords (req : Request) (result : FindResult) :
    ∃ comp, ((processFind req result).filterMap Emit.record).filterMap Post.completionRecord =
        [comp] ∧ comp.userData = req.userData ∧
      (comp.status = .statusOk ∨ comp.status = .statusNotFound ∨
        comp.status = .statusError) ∧
      ∀ other, Post.traverse other ∉ (processFind req result).filterMap Emit.record := by
  obtain ⟨large, comp, records, -, owner, status⟩ := processFind_records req result
  refine ⟨comp, ?_, owner, status, by simp [records]⟩
  simp [records, List.filterMap_append, List.filterMap_map, Post.completionRecord,
    Function.comp_def]

/-- A call of the walk keeps the machine's id and posts records of the walk
with that id. -/
theorem handle_records (machine : FifoTraverseMachine) (event : WalkEvent) :
    (machine.handle event).1.lo = machine.lo ∧ (machine.handle event).1.hi = machine.hi ∧
      ∀ post ∈ (machine.handle event).2.filterMap Emit.record,
        post.userData = (machine.lo, machine.hi) ∧ post.IsWalkRecord := by
  have sent : ∀ (entered : FifoTraverseMachine) (node : Node), entered.lo = machine.lo →
      entered.hi = machine.hi → ∀ post ∈ (entered.sendNode node).filterMap Emit.record,
        post.userData = (machine.lo, machine.hi) ∧ post.IsWalkRecord := by
    intro entered node lo hi post member
    simp only [FifoTraverseMachine.sendNode, List.filterMap_append, filterMap_largeValueEmits,
      List.mem_append, List.mem_map] at member
    rcases member with ⟨large, inside, rfl⟩ | member
    · split at inside <;> simp_all [LargeValue.userData, Post.userData, Post.IsWalkRecord]
    · simp only [Emit.record, List.filterMap_cons, List.filterMap_nil,
        List.mem_singleton] at member
      subst member
      exact ⟨by simp [Post.userData, FifoTraverseMachine.moreRecord_userData, lo, hi], by
        simp [Post.IsWalkRecord, FifoTraverseMachine.moreRecord]⟩
  cases event with
  | up branch node => exact ⟨rfl, rfl, nofun⟩
  | down branch node =>
      cases branch <;> refine ⟨rfl, rfl, ?_⟩ <;>
        simp only [FifoTraverseMachine.handle, FifoTraverseMachine.down] <;> split <;>
        first | exact sent _ node rfl rfl | nofun

/-! ## Where a request is -/

/-- What a request has posted once the fiber that took it is done with it,
by the case of `worker_fiber` it went to: a Find its completion, a traversal
its walk and `TRAVERSE_END`, any other request nothing. -/
def Finished (req : Request) (posts : List Post) : Prop :=
  match RequestType.ofCode req.type with
  | some .reqFindValue | some .reqFindNode =>
      ∃ result, posts = (processFind req result).filterMap Emit.record
  | some .reqTraverse =>
      ∃ walked, (∀ post ∈ walked, post.IsWalkRecord) ∧
        posts = walked ++ [.traverse (traverseEnd req)]
  | _ => posts = []

/-- What the fiber that processes a request has posted for it so far. -/
def Fiber.Started : Fiber → List Post → Prop
  | .finding node, posts => node.req.IsFind ∧ posts = []
  | .resolving node, posts => node.req.IsTraverse ∧ posts = []
  | .walking node machine, posts =>
      node.req.IsTraverse ∧ (machine.lo, machine.hi) = node.req.userData ∧
        ∀ post ∈ posts, post.IsWalkRecord
  | _, _ => True

theorem Request.not_isTraverse_of_isFind {req : Request} (find : req.IsFind) :
    ¬ req.IsTraverse := by
  rcases find with kind | kind <;> simp [Request.IsTraverse, kind]

theorem walkRecords_completionRecords {posts : List Post}
    (walk : ∀ post ∈ posts, post.IsWalkRecord) : posts.filterMap Post.completionRecord = [] :=
  List.filterMap_eq_nil_iff.mpr fun post member => by
    have walkRecord := walk post member
    cases post <;> simp_all [Post.IsWalkRecord, Post.completionRecord]

theorem Finished.find {req : Request} (find : req.IsFind) (result : FindResult) :
    Finished req ((processFind req result).filterMap Emit.record) := by
  rcases find with kind | kind <;> simp only [Finished, kind] <;> exact ⟨result, rfl⟩

theorem Finished.traverse {req : Request} (traversal : req.IsTraverse) {walked : List Post}
    (walk : ∀ post ∈ walked, post.IsWalkRecord) :
    Finished req (walked ++ [.traverse (traverseEnd req)]) := by
  simp only [Finished, show RequestType.ofCode req.type = some .reqTraverse from traversal]
  exact ⟨walked, walk, rfl⟩

theorem Finished.of_isFind {req : Request} {posts : List Post} (finished : Finished req posts)
    (find : req.IsFind) : ∃ result, posts = (processFind req result).filterMap Emit.record := by
  rcases find with kind | kind <;> simpa [Finished, kind] using finished

theorem Finished.of_isTraverse {req : Request} {posts : List Post} (finished : Finished req posts)
    (traversal : req.IsTraverse) :
    ∃ walked, (∀ post ∈ walked, post.IsWalkRecord) ∧
      posts = walked ++ [.traverse (traverseEnd req)] := by
  simpa [Finished, show RequestType.ofCode req.type = some .reqTraverse from traversal]
    using finished

/-- Only a Find posts a completion. -/
theorem Finished.completionRecords {req : Request} {posts : List Post}
    (finished : Finished req posts) (notFind : ¬ req.IsFind) :
    posts.filterMap Post.completionRecord = [] := by
  unfold Finished at finished
  cases kind : RequestType.ofCode req.type with
  | none => simp only [kind] at finished; simp [finished]
  | some kind' =>
      cases kind' <;> simp only [kind] at finished
      · exact absurd (.inl kind) notFind
      · exact absurd (.inr kind) notFind
      · obtain ⟨walked, walk, rfl⟩ := finished
        simp [walkRecords_completionRecords walk, Post.completionRecord]
      · simp [finished]

theorem Fiber.Started.completionRecords {fiber : Fiber} {node : RequestNode} {posts : List Post}
    (busy : fiber.request = some node) (started : fiber.Started posts) :
    posts.filterMap Post.completionRecord = [] := by
  cases fiber <;> simp only [Fiber.request, reduceCtorEq] at busy
  · rw [started.2]; rfl
  · rw [started.2]; rfl
  · exact walkRecords_completionRecords started.2.2

theorem Fiber.Started.of_isFind {fiber : Fiber} {node : RequestNode} {posts : List Post}
    (busy : fiber.request = some node) (find : node.req.IsFind) (started : fiber.Started posts) :
    posts = [] := by
  cases fiber <;> simp only [Fiber.request, reduceCtorEq, Option.some.injEq] at busy <;>
    subst busy
  · exact started.2
  · exact absurd started.1 (Request.not_isTraverse_of_isFind find)
  · exact absurd started.1 (Request.not_isTraverse_of_isFind find)

theorem Fiber.Started.of_isTraverse {fiber : Fiber} {node : RequestNode} {posts : List Post}
    (busy : fiber.request = some node) (traversal : node.req.IsTraverse)
    (started : fiber.Started posts) : ∀ post ∈ posts, post.IsWalkRecord := by
  cases fiber <;> simp only [Fiber.request, reduceCtorEq, Option.some.injEq] at busy <;>
    subst busy
  · exact absurd traversal (Request.not_isTraverse_of_isFind started.1)
  · rw [started.2]; exact nofun
  · exact started.2.2

/-- A step of a caller, of `start` or of a fiber: none of `stop()` or
`fifo_destroy`, so the flag stays set once `start` has set it. -/
def Label.keepsRunning : Label → Bool
  | .stop | .stopSend | .stopJoin | .destroy => false
  | _ => true

namespace Bridge

/-- The requests on the request queue, oldest first; the null slots of a
batch submit are not requests. -/
def waiting (bridge : Bridge) : List RequestNode :=
  match bridge.requestFifo with
  | none => []
  | some fifo => fifo.items.filterMap Prod.snd

/-- The requests the fibers of the pool are processing. -/
def processing (bridge : Bridge) : List RequestNode :=
  bridge.pool.filterMap Fiber.request

/-- Each submitted request is waiting or has been dequeued, once; a
dequeued request is processed by one fiber, which has posted for it what
`Fiber.Started` says, or it is finished; and no record carries an id that
no dequeued request has. -/
structure Lives (bridge : Bridge) : Prop where
  queued : bridge.requestFifo.isSome
  waiting : bridge.dequeued ++ bridge.waiting = bridge.submitted
  unseen : ∀ id, (∀ node ∈ bridge.dequeued, node.req.userData ≠ id) →
    recordsFor bridge.posted id = []
  alone : bridge.processing.Nodup
  started : ∀ fiber ∈ bridge.pool, ∀ node, fiber.request = some node →
    node ∈ bridge.dequeued ∧ fiber.Started (recordsFor bridge.posted node.req.userData)
  finished : ∀ node ∈ bridge.dequeued, node ∉ bridge.processing →
    Finished node.req (recordsFor bridge.posted node.req.userData)

/-! ## What a fiber's step does to the requests -/

/-- A step of a fiber that processes no request: nothing happens to the
requests, or `dispatch` takes the first waiting one, which its fiber then
processes or which is finished at once. -/
theorem workerStep_idle {bridge mid : Bridge} {fiber next : Fiber} {event : FiberEvent}
    (idle : fiber.request = none) (queued : bridge.requestFifo.isSome)
    (stepped : bridge.workerStep fiber event = some (next, mid)) :
    mid.requestFifo.isSome ∧ mid.submitted = bridge.submitted ∧ mid.posted = bridge.posted ∧
      ((next.request = none ∧ mid.waiting = bridge.waiting ∧ mid.dequeued = bridge.dequeued) ∨
        ∃ node, bridge.waiting = node :: mid.waiting ∧
          mid.dequeued = bridge.dequeued ++ [node] ∧
          ((next.request = some node ∧ next.Started []) ∨
            (next.request = none ∧ Finished node.req []))) := by
  cases workerStep_iff.mp stepped with
  | check => exact ⟨queued, rfl, rfl, .inl ⟨by split <;> rfl, rfl, rfl⟩⟩
  | dispatch =>
      obtain ⟨fifo, isFifo⟩ := Option.isSome_iff_exists.mp queued
      obtain ⟨wrapper, stub, items⟩ := fifo
      rcases items with _ | ⟨⟨entry, _ | node⟩, rest⟩ <;> simp only [dispatch, isFifo, Fifo.dequeue]
      · exact ⟨rfl, trivial, trivial, .inl ⟨rfl, trivial, trivial⟩⟩
      · exact ⟨rfl, rfl, rfl, .inl ⟨rfl, by simp [waiting, isFifo, free], rfl⟩⟩
      · have waitingNode : bridge.waiting = node :: rest.filterMap Prod.snd := by
          simp [waiting, isFifo]
        cases kind : RequestType.ofCode node.req.type with
        | none =>
            exact ⟨rfl, rfl, rfl, .inr ⟨node, waitingNode, rfl, .inr ⟨rfl, by simp [Finished, kind]⟩⟩⟩
        | some kind' =>
            cases kind' <;> refine ⟨rfl, rfl, rfl, .inr ⟨node, waitingNode, rfl, ?_⟩⟩
            · exact .inl ⟨rfl, .inl kind, rfl⟩
            · exact .inl ⟨rfl, .inr kind, rfl⟩
            · exact .inl ⟨rfl, kind, rfl⟩
            · exact .inr ⟨rfl, by simp [Finished, kind]⟩
  | found | resolved | unresolved | walk | walkEnd => simp [Fiber.request] at idle

/-- A fiber's step submits nothing. -/
theorem workerStep_submitted {bridge mid : Bridge} {fiber next : Fiber} {event : FiberEvent}
    (stepped : bridge.workerStep fiber event = some (next, mid)) :
    mid.submitted = bridge.submitted := by
  by_cases dequeuing : fiber = .dequeuing
  · subst dequeuing
    cases workerStep_iff.mp stepped
    exact (dispatch_frame bridge).2.2.2.1
  · exact ((workerStep_iff.mp stepped).postingFrame dequeuing).submitted

/-- A step of a fiber that processes `node`: the requests stay where they
are, the step posts records with the id of `node` only, and the fiber goes
on with `node` or is done with it. -/
theorem workerStep_busy {bridge mid : Bridge} {fiber next : Fiber} {event : FiberEvent}
    {node : RequestNode} {old : List Post} (busy : fiber.request = some node)
    (started : fiber.Started old) (noFailure : bridge.heap.NoFailure)
    (created : bridge.ResultQueuesExist)
    (stepped : bridge.workerStep fiber event = some (next, mid)) :
    mid.requestFifo = bridge.requestFifo ∧ mid.submitted = bridge.submitted ∧
      mid.dequeued = bridge.dequeued ∧
      ∃ new, mid.posted = bridge.posted ++ new ∧
        (∀ post ∈ new, post.userData = node.req.userData) ∧
        ((next.request = some node ∧ next.Started (old ++ new)) ∨
          (next.request = none ∧ Finished node.req (old ++ new))) := by
  have worked := workerStep_iff.mp stepped
  have frame := worked.postingFrame fun dequeuing => by simp [dequeuing, Fiber.request] at busy
  refine ⟨frame.requestFifo, frame.submitted, frame.dequeued, _,
    (workerStep_posts noFailure created stepped).1, ?_⟩
  have ended : ∀ post ∈ [Post.traverse (traverseEnd node.req)],
      post.userData = node.req.userData := by
    simp only [List.mem_singleton, forall_eq]; rfl
  cases worked with
  | check | dispatch => simp [Fiber.request] at busy
  | found holder result =>
      obtain rfl : node = holder := by simpa [Fiber.request] using busy.symm
      obtain ⟨find, rfl⟩ := started
      obtain ⟨large, comp, records, largeOwned, compOwned, -⟩ := processFind_records node.req result
      refine ⟨fun post member => ?_, .inr ⟨rfl, Finished.find find result⟩⟩
      simp only [workerEmits, records, List.mem_append, List.mem_map, List.mem_singleton] at member
      rcases member with ⟨value, inside, rfl⟩ | rfl
      · exact largeOwned value inside
      · exact compOwned
  | resolved holder =>
      obtain rfl : node = holder := by simpa [Fiber.request] using busy.symm
      obtain ⟨traversal, rfl⟩ := started
      exact ⟨nofun, .inl ⟨rfl, traversal, rfl, nofun⟩⟩
  | unresolved holder =>
      obtain rfl : node = holder := by simpa [Fiber.request] using busy.symm
      obtain ⟨traversal, rfl⟩ := started
      exact ⟨ended, .inr ⟨rfl, Finished.traverse traversal nofun⟩⟩
  | walk holder machine walkEvent =>
      obtain rfl : node = holder := by simpa [Fiber.request] using busy.symm
      obtain ⟨traversal, owner, walked⟩ := started
      obtain ⟨lo, hi, records⟩ := handle_records machine walkEvent
      refine ⟨fun post member => owner ▸ (records post member).1, .inl ⟨rfl, traversal,
        by rw [lo, hi, owner], fun post member => ?_⟩⟩
      rcases List.mem_append.mp member with early | late
      · exact walked post early
      · exact (records post late).2
  | walkEnd holder machine =>
      obtain rfl : node = holder := by simpa [Fiber.request] using busy.symm
      obtain ⟨traversal, -, walked⟩ := started
      exact ⟨ended, .inr ⟨rfl, Finished.traverse traversal walked⟩⟩

/-! ## Each step keeps the invariant -/

private theorem filterMap_middle {α β : Type} (f : α → Option β) (front back : List α) (x : α) :
    (front ++ x :: back).filterMap f = front.filterMap f ++ (f x).toList ++ back.filterMap f := by
  cases found : f x <;> simp [found]

private theorem mem_middle {α : Type} {front back : List α} {x y : α} :
    x ∈ front ++ y :: back ↔ x = y ∨ x ∈ front ++ back := by
  simp only [List.mem_append, List.mem_cons]; tauto

private theorem set_split {α : Type} {list : List α} {index : Nat} {x : α}
    (found : list[index]? = some x) (y : α) :
    ∃ front back, list = front ++ x :: back ∧ list.set index y = front ++ y :: back := by
  obtain ⟨bound, rfl⟩ := List.getElem?_eq_some_iff.mp found
  refine ⟨list.take index, list.drop (index + 1), ?_, ?_⟩
  · rw [List.getElem_cons_drop]; exact (List.take_append_drop index list).symm
  · rw [List.set_eq_take_append_cons_drop, if_pos bound]

namespace Lives

variable {bridge after : Bridge} (lives : bridge.Lives)
  (distinct : (bridge.submitted.map fun node => node.req.userData).Nodup)
include lives

theorem mem_submitted {node : RequestNode} (dequeued : node ∈ bridge.dequeued) :
    node ∈ bridge.submitted :=
  lives.waiting ▸ List.mem_append_left _ dequeued

include distinct

/-- Two dequeued requests with one id are one request. -/
theorem eq_of_userData {first second : RequestNode} (firstIn : first ∈ bridge.dequeued)
    (secondIn : second ∈ bridge.dequeued) (same : first.req.userData = second.req.userData) :
    first = second :=
  List.inj_on_of_nodup_map distinct (lives.mem_submitted firstIn) (lives.mem_submitted secondIn)
    same

/-- No dequeued request has the id of a waiting one. -/
theorem waiting_fresh {node : RequestNode} (waiting : node ∈ bridge.waiting) :
    ∀ other ∈ bridge.dequeued, other.req.userData ≠ node.req.userData := by
  intro other dequeued same
  have apart := List.disjoint_of_nodup_append (lives.waiting ▸ distinct.of_map _)
  exact apart dequeued (List.inj_on_of_nodup_map distinct (lives.mem_submitted dequeued)
    (lives.waiting ▸ List.mem_append_right _ waiting) same ▸ waiting)

omit distinct

/-- A step that leaves the request queue, the pool and the histories. -/
theorem of_callerFrame (frame : CallerFrame bridge after) : after.Lives := by
  have waiting : after.waiting = bridge.waiting := by simp only [Bridge.waiting, frame.requestFifo]
  have processing : after.processing = bridge.processing := by
    simp only [Bridge.processing, frame.pool]
  refine ⟨frame.requestFifo ▸ lives.queued, ?_, ?_, processing ▸ lives.alone, ?_, ?_⟩
  · rw [waiting, frame.dequeued, frame.submitted]; exact lives.waiting
  · rw [frame.dequeued, frame.posted]; exact lives.unseen
  · rw [frame.pool, frame.dequeued, frame.posted]; exact lives.started
  · rw [processing, frame.dequeued, frame.posted]; exact lives.finished

/-- `submit` puts the request at the end of the queue. -/
theorem submit (noFailure : bridge.heap.NoFailure) (node : Option RequestNode) :
    (bridge.submit node).Lives := by
  obtain ⟨fifo, isFifo⟩ := Option.isSome_iff_exists.mp lives.queued
  simp only [Bridge.submit, Heap.alloc_of_noFailure noFailure, enqueueRequest, isFifo]
  refine ⟨rfl, ?_, lives.unseen, lives.alone, lives.started, lives.finished⟩
  rw [← lives.waiting]
  cases node <;> simp [Bridge.waiting, Fifo.enqueue, isFifo]

/-- `start` sets up fibers at the head of their loop, in a pool that was
empty unless it runs. -/
theorem start (empty : bridge.running = false → bridge.pool = []) (numWorkers : Nat) :
    (bridge.start numWorkers).Lives := by
  unfold Bridge.start
  split
  · exact lives
  · rename_i running
    have fresh : ∀ fiber ∈ List.replicate (if numWorkers = 0 then 1 else numWorkers) Fiber.loop,
        fiber.request = none := fun fiber member => by
      rw [List.eq_of_mem_replicate member]; rfl
    have processing : bridge.processing = [] := by
      simp [Bridge.processing, empty (by simpa using running)]
    refine ⟨lives.queued, lives.waiting, lives.unseen,
      by simp [Bridge.processing, List.filterMap_eq_nil_iff.mpr fresh], ?_, ?_⟩
    · intro fiber member node request
      simp [fresh fiber member] at request
    · intro node dequeued _
      exact lives.finished node dequeued (by simp [processing])

include distinct

/-- A fiber that processes `node` steps: the records it posts carry the id
of `node`, and no other request's records change. -/
theorem busy {front back : List Fiber} {fiber next : Fiber} {node : RequestNode}
    {new : List Post} (pool : bridge.pool = front ++ fiber :: back)
    (busy : fiber.request = some node) (afterPool : after.pool = front ++ next :: back)
    (requestFifo : after.requestFifo = bridge.requestFifo)
    (submitted : after.submitted = bridge.submitted) (dequeued : after.dequeued = bridge.dequeued)
    (posted : after.posted = bridge.posted ++ new)
    (owned : ∀ post ∈ new, post.userData = node.req.userData)
    (moved : (next.request = some node ∧
        next.Started (recordsFor bridge.posted node.req.userData ++ new)) ∨
      (next.request = none ∧
        Finished node.req (recordsFor bridge.posted node.req.userData ++ new))) :
    after.Lives := by
  have records : ∀ id, recordsFor after.posted id =
      recordsFor bridge.posted id ++ if node.req.userData = id then new else [] := fun id => by
    rw [posted, recordsFor_append, recordsFor_owned owned]
  have nodeIn : node ∈ bridge.dequeued := (lives.started fiber (by simp [pool]) node busy).1
  have before : bridge.processing =
      front.filterMap Fiber.request ++ node :: back.filterMap Fiber.request := by
    rw [Bridge.processing, pool, filterMap_middle, busy]; simp
  have afterProcessing : after.processing =
      front.filterMap Fiber.request ++ next.request.toList ++ back.filterMap Fiber.request := by
    rw [Bridge.processing, afterPool, filterMap_middle]
  have alone := List.nodup_cons.mp (List.nodup_middle.mp (before ▸ lives.alone))
  /- The records of any other dequeued request stay as they were. -/
  have unmoved : ∀ other ∈ bridge.dequeued, other ≠ node →
      recordsFor after.posted other.req.userData = recordsFor bridge.posted other.req.userData :=
    fun other otherIn differs => by
      rw [records, if_neg fun same => differs (lives.eq_of_userData distinct otherIn nodeIn
        same.symm), List.append_nil]
  have inRest : ∀ other ∈ bridge.processing, other ≠ node →
      other ∈ front.filterMap Fiber.request ++ back.filterMap Fiber.request := by
    intro other member differs
    rw [before] at member
    simp only [List.mem_append, List.mem_cons] at member ⊢
    tauto
  refine ⟨requestFifo ▸ lives.queued, ?_, ?_, ?_, ?_, ?_⟩
  · have waiting : after.waiting = bridge.waiting := by simp only [Bridge.waiting, requestFifo]
    rw [waiting, dequeued, submitted]; exact lives.waiting
  · intro id unseen
    rw [dequeued] at unseen
    rw [records, lives.unseen id unseen, if_neg (unseen node nodeIn)]; rfl
  · rw [afterProcessing]
    rcases moved with ⟨request, -⟩ | ⟨request, -⟩ <;> rw [request]
    · simpa using List.nodup_middle.mpr (List.nodup_cons.mpr alone)
    · simpa using alone.2
  · intro other member request owner
    rw [dequeued]
    rw [afterPool, mem_middle] at member
    rcases member with rfl | rest
    · rcases moved with ⟨moved, started⟩ | ⟨moved, -⟩ <;> rw [moved] at owner
      · cases owner
        rw [records, if_pos rfl]
        exact ⟨nodeIn, started⟩
      · cases owner
    · have kept := lives.started other (pool ▸ mem_middle.mpr (.inr rest)) request owner
      refine ⟨kept.1, (unmoved request kept.1 fun same => alone.1 ?_) ▸ kept.2⟩
      rw [← List.filterMap_append]
      exact List.mem_filterMap.mpr ⟨other, rest, same ▸ owner⟩
  · intro other otherIn notProcessing
    rw [dequeued] at otherIn
    by_cases same : other = node
    · subst same
      rcases moved with ⟨moved, -⟩ | ⟨-, finished⟩
      · exact absurd (by simp [afterProcessing, moved]) notProcessing
      · rw [records, if_pos rfl]; exact finished
    · rw [unmoved other otherIn same]
      refine lives.finished other otherIn fun member => notProcessing ?_
      rw [afterProcessing]
      rcases List.mem_append.mp (inRest other member same) with early | late
      · exact List.mem_append_left _ (List.mem_append_left _ early)
      · exact List.mem_append_right _ late

/-- A fiber that processes no request steps: it leaves the requests alone,
or it takes the first waiting request, whose records are none yet. -/
theorem idle {front back : List Fiber} {fiber next : Fiber}
    (pool : bridge.pool = front ++ fiber :: back) (idle : fiber.request = none)
    (afterPool : after.pool = front ++ next :: back) (queued : after.requestFifo.isSome)
    (submitted : after.submitted = bridge.submitted) (posted : after.posted = bridge.posted)
    (moved : (next.request = none ∧ after.waiting = bridge.waiting ∧
        after.dequeued = bridge.dequeued) ∨
      ∃ node, bridge.waiting = node :: after.waiting ∧
        after.dequeued = bridge.dequeued ++ [node] ∧
        ((next.request = some node ∧ next.Started []) ∨
          (next.request = none ∧ Finished node.req []))) :
    after.Lives := by
  have before : bridge.processing =
      front.filterMap Fiber.request ++ back.filterMap Fiber.request := by
    rw [Bridge.processing, pool, filterMap_middle, idle]; simp
  have afterProcessing : after.processing =
      front.filterMap Fiber.request ++ next.request.toList ++ back.filterMap Fiber.request := by
    rw [Bridge.processing, afterPool, filterMap_middle]
  have others : ∀ other ∈ front ++ back, other ∈ bridge.pool := fun other rest =>
    pool ▸ mem_middle.mpr (.inr rest)
  have kept : ∀ other ∈ bridge.processing, other ∈ after.processing := fun other member => by
    rw [before] at member
    rw [afterProcessing]
    rcases List.mem_append.mp member with early | late
    · exact List.mem_append_left _ (List.mem_append_left _ early)
    · exact List.mem_append_right _ late
  rcases moved with ⟨request, waiting, dequeued⟩ | ⟨node, waiting, dequeued, moved⟩
  · have processing : after.processing = bridge.processing := by
      rw [afterProcessing, before, request]; simp
    refine ⟨queued, by rw [waiting, dequeued, submitted]; exact lives.waiting,
      by rw [dequeued, posted]; exact lives.unseen, processing ▸ lives.alone, ?_, ?_⟩
    · intro other member node owner
      rw [posted]
      rw [afterPool, mem_middle] at member
      rcases member with rfl | rest
      · simp [request] at owner
      · exact dequeued ▸ lives.started other (others other rest) node owner
    · rw [processing, dequeued, posted]; exact lives.finished
  · have fresh := lives.waiting_fresh distinct (show node ∈ bridge.waiting by simp [waiting])
    have noRecords : recordsFor bridge.posted node.req.userData = [] := lives.unseen _ fresh
    have notDequeued : node ∉ bridge.dequeued := fun member => fresh node member rfl
    have notProcessing : node ∉ bridge.processing := fun member => by
      obtain ⟨other, inPool, owner⟩ := List.mem_filterMap.mp member
      exact notDequeued (lives.started other inPool node owner).1
    refine ⟨queued, ?_, ?_, ?_, ?_, ?_⟩
    · rw [dequeued, submitted, ← lives.waiting, waiting]; simp
    · intro id unseen
      rw [posted]
      exact lives.unseen id fun other member => unseen other (by simp [dequeued, member])
    · rw [afterProcessing]
      rcases moved with ⟨request, -⟩ | ⟨request, -⟩ <;> rw [request]
      · simpa using List.nodup_middle.mpr
          (List.nodup_cons.mpr ⟨before ▸ notProcessing, before ▸ lives.alone⟩)
      · simpa [before] using lives.alone
    · intro other member owner request
      rw [dequeued, posted]
      rw [afterPool, mem_middle] at member
      rcases member with rfl | rest
      · rcases moved with ⟨moved, started⟩ | ⟨moved, -⟩ <;> rw [moved] at request
        · cases request
          exact ⟨by simp, noRecords ▸ started⟩
        · cases request
      · have started := lives.started other (others other rest) owner request
        exact ⟨List.mem_append_left _ started.1, started.2⟩
    · intro other otherIn notAfter
      rw [posted]
      rw [dequeued, List.mem_append, List.mem_singleton] at otherIn
      rcases otherIn with otherIn | rfl
      · exact lives.finished other otherIn fun member => notAfter (kept other member)
      · rcases moved with ⟨moved, -⟩ | ⟨-, finished⟩
        · exact absurd (by simp [afterProcessing, moved]) notAfter
        · exact noRecords ▸ finished

/-- A fiber's step, whatever the fiber does. -/
theorem fiberStep (noFailure : bridge.heap.NoFailure) (created : bridge.ResultQueuesExist)
    {index : Nat} {event : FiberEvent} {fiber next : Fiber} {mid : Bridge}
    (found : bridge.pool[index]? = some fiber)
    (worked : bridge.workerStep fiber event = some (next, mid)) :
    ({ mid with pool := mid.pool.set index next } : Bridge).Lives := by
  obtain ⟨front, back, pool, set⟩ := set_split found next
  have afterPool : ({ mid with pool := mid.pool.set index next } : Bridge).pool =
      front ++ next :: back := by
    simp only [(workerStep_controlFrame worked).pool, set]
  cases busy : fiber.request with
  | none =>
      obtain ⟨queued, submitted, posted, moved⟩ := workerStep_idle busy lives.queued worked
      exact lives.idle distinct pool busy afterPool queued submitted posted moved
  | some node =>
      obtain ⟨-, started⟩ := lives.started fiber (by simp [pool]) node busy
      obtain ⟨requestFifo, submitted, dequeued, new, posted, owned, moved⟩ :=
        workerStep_busy busy started noFailure created worked
      exact lives.busy distinct pool busy afterPool requestFifo submitted dequeued posted owned
        moved

omit distinct in
/-- The records of one id: none, or those of the dequeued request with
that id, as far as its fiber has got. -/
theorem recordsFor_cases (id : UInt64 × UInt64) :
    recordsFor bridge.posted id = [] ∨
      ∃ node ∈ bridge.dequeued, node.req.userData = id ∧
        ((∃ fiber ∈ bridge.pool, fiber.request = some node ∧
            fiber.Started (recordsFor bridge.posted id)) ∨
          Finished node.req (recordsFor bridge.posted id)) := by
  by_cases seen : ∃ node ∈ bridge.dequeued, node.req.userData = id
  · obtain ⟨node, dequeued, rfl⟩ := seen
    refine .inr ⟨node, dequeued, rfl, ?_⟩
    by_cases processing : node ∈ bridge.processing
    · obtain ⟨fiber, inPool, request⟩ := List.mem_filterMap.mp processing
      exact .inl ⟨fiber, inPool, request, (lives.started fiber inPool node request).2⟩
    · exact .inr (lives.finished node dequeued processing)
  · push_neg at seen
    exact .inl (lives.unseen id seen)

omit distinct in
/-- The completion records of one id: none, or the one of the finished Find
with that id. -/
theorem completionRecords_cases (id : UInt64 × UInt64) :
    (recordsFor bridge.posted id).filterMap Post.completionRecord = [] ∨
      ∃ node ∈ bridge.dequeued, node.req.userData = id ∧ node.req.IsFind ∧
        ∃ result, recordsFor bridge.posted id = (processFind node.req result).filterMap Emit.record := by
  rcases lives.recordsFor_cases id with
    empty | ⟨node, dequeued, rfl, ⟨fiber, -, request, started⟩ | finished⟩
  · simp [empty]
  · exact .inl (started.completionRecords request)
  · by_cases find : node.req.IsFind
    · exact .inr ⟨node, dequeued, rfl, find, finished.of_isFind find⟩
    · exact .inl (finished.completionRecords find)

end Lives

/-- Only `submit` adds to the submitted requests, at the end. -/
theorem step_submitted {bridge after : Bridge} {label : Label}
    (stepped : bridge.step label = some after) : bridge.submitted <+: after.submitted := by
  have same : after.submitted = bridge.submitted → bridge.submitted <+: after.submitted :=
    fun same => same ▸ List.prefix_refl _
  cases (step_iff.mp stepped).2 with
  | allocRequest req => exact same (allocRequest_frame _ _).submitted
  | @submit node given handed =>
      rw [← (handOver_frame handed).submitted]
      rcases Heap.alloc_cases given.heap with allocated | allocated
      · cases node <;> simp [Bridge.submit, allocated]
      · simp only [Bridge.submit, allocated]
        exact List.prefix_append _ _
  | poll queue => exact same (pollRecord_frame _ _).submitted
  | pollLargeValue => exact same (pollLargeValue_frame _).submitted
  | free member => exact same (release_frame _ _).submitted
  | start numWorkers => exact same (by unfold Bridge.start; split <;> rfl)
  | stop => exact same (by unfold Bridge.stop; split <;> rfl)
  | stopSend =>
      refine same ?_
      dsimp only
      unfold sendShutdown enqueueRequest
      repeat' split
      all_goals rfl
  | stopJoin => exact same rfl
  | destroy => exact same (by simp [destroy, destroyFifo_eq])
  | fiber found worked =>
      have submitted := workerStep_submitted worked
      exact same submitted

/-- What every run of callers, `start` and fibers keeps from `fifo_create`
when no allocation fails: the result queues, a settled pool, a control
thread that never stopped, and, while the submitted ids are distinct, the
life of every request. -/
structure Serving (bridge : Bridge) : Prop where
  noFailure : bridge.heap.NoFailure
  created : bridge.ResultQueuesExist
  settled : bridge.Settled
  idle : bridge.control = .idle
  lives : (bridge.submitted.map fun node => node.req.userData).Nodup → bridge.Lives

theorem fifoCreate_serving {outcomes : List Bool} (noFailure : false ∉ outcomes) :
    (fifoCreate outcomes).Serving := by
  obtain ⟨heapOk, created, queued⟩ := fifoCreate_of_noFailure noFailure
  refine ⟨heapOk, created, fifoCreate_settled outcomes, rfl,
    fun _ => ⟨queued, ?_, fun _ _ => rfl, List.nodup_nil, nofun, nofun⟩⟩
  simp [Bridge.waiting, fifoCreate,
    createFifo_of_noFailure (show Heap.NoFailure ⟨0, [], outcomes⟩ from noFailure)]

theorem step_serving {bridge after : Bridge} {label : Label} (serving : bridge.Serving)
    (keeps : label.keepsRunning) (stepped : bridge.step label = some after) : after.Serving := by
  obtain ⟨-, noFailure, created⟩ := step_posts serving.noFailure serving.created stepped
  have grown := step_submitted stepped
  suffices kept : after.control = .idle ∧
      ((bridge.submitted.map fun node => node.req.userData).Nodup → bridge.Lives → after.Lives) from
    ⟨noFailure, created (by rw [kept.1]; nofun), step_settled serving.settled stepped, kept.1,
      fun distinct =>
        have earlier := distinct.sublist (grown.sublist.map _)
        kept.2 earlier (serving.lives earlier)⟩
  cases (step_iff.mp stepped).2 with
  | allocRequest req =>
      have frame := allocRequest_frame bridge req
      exact ⟨frame.control.trans serving.idle, fun _ lives => lives.of_callerFrame frame⟩
  | @submit node given handed =>
      have frame := handOver_frame handed
      exact ⟨(submit_controlFrame given node).control.trans (frame.control.trans serving.idle),
        fun _ lives => (lives.of_callerFrame frame).submit (frame.noFailure serving.noFailure) node⟩
  | poll queue =>
      have frame := pollRecord_frame bridge queue
      exact ⟨frame.control.trans serving.idle, fun _ lives => lives.of_callerFrame frame⟩
  | pollLargeValue =>
      have frame := pollLargeValue_frame bridge
      exact ⟨frame.control.trans serving.idle, fun _ lives => lives.of_callerFrame frame⟩
  | @free held _ =>
      have frame := release_frame bridge held
      exact ⟨frame.control.trans serving.idle, fun _ lives => lives.of_callerFrame frame⟩
  | start numWorkers =>
      exact ⟨by unfold Bridge.start; split <;> exact serving.idle,
        fun _ lives => lives.start (serving.settled.stopped serving.idle) numWorkers⟩
  | stop | stopSend | stopJoin | destroy => simp [Label.keepsRunning] at keeps
  | fiber found worked =>
      exact ⟨(workerStep_controlFrame worked).control.trans serving.idle, fun distinct lives =>
        lives.fiberStep distinct serving.noFailure serving.created found worked⟩

/-- Every run of callers, `start` and fibers from a `fifo_create` whose
allocations never fail is serving. -/
theorem run_serving {outcomes : List Bool} (noFailure : false ∉ outcomes) {labels : List Label}
    (running : ∀ label ∈ labels, label.keepsRunning) {final : Bridge}
    (ran : (fifoCreate outcomes).run labels = some final) : final.Serving :=
  run_induction (fun bridge _ _ keeps (serving : bridge.Serving) stepped =>
    step_serving serving keeps stepped) running (fifoCreate_serving noFailure) ran

end Bridge

/-! ## What the queues carry -/

/-- In every run of callers, `start` and fibers in which no allocation fails
and the submitted requests have pairwise distinct ids: each record of the
completion queue has status Ok, NotFound or Error and the id of exactly one
submitted Find request; no id has two completion records; no traverse record
has the id of a Find request; and once the request queue is empty and no
fiber is inside `process_find` or `process_traverse`, each submitted Find
request has exactly one completion record, and its records are those
`process_find` posts for one answer of `db_.find`. -/
theorem findRequests_answered {outcomes : List Bool} (noFailure : false ∉ outcomes)
    {labels : List Label} (running : ∀ label ∈ labels, label.keepsRunning) {final : Bridge}
    (ran : (fifoCreate outcomes).run labels = some final)
    (distinct : (final.submitted.map fun node => node.req.userData).Nodup) :
    (∀ comp, .completion comp ∈ final.posted →
        (comp.status = .statusOk ∨ comp.status = .statusNotFound ∨
          comp.status = .statusError) ∧
        ∃! node, node ∈ final.submitted ∧ node.req.IsFind ∧ node.req.userData = comp.userData) ∧
      (∀ id, ((recordsFor final.posted id).filterMap Post.completionRecord).length ≤ 1) ∧
      (∀ node ∈ final.submitted, node.req.IsFind →
        ∀ comp, .traverse comp ∈ final.posted → comp.userData ≠ node.req.userData) ∧
      (final.waiting = [] → final.processing = [] →
        ∀ node ∈ final.submitted, node.req.IsFind →
          ∃ result comp, recordsFor final.posted node.req.userData =
              (processFind node.req result).filterMap Emit.record ∧
            (recordsFor final.posted node.req.userData).filterMap Post.completionRecord =
              [comp]) := by
  have lives := (Bridge.run_serving noFailure running ran).lives distinct
  refine ⟨fun comp member => ?_, fun id => ?_, fun node submitted find comp member same => ?_,
    fun empty idle node submitted find => ?_⟩
  · have inRecords : Post.completion comp ∈ recordsFor final.posted comp.userData :=
      List.mem_filter.mpr ⟨member, by simp [Post.userData]⟩
    have inCompletions :
        comp ∈ (recordsFor final.posted comp.userData).filterMap Post.completionRecord :=
      List.mem_filterMap.mpr ⟨_, inRecords, rfl⟩
    rcases lives.completionRecords_cases comp.userData with
      none | ⟨node, dequeued, owner, find, result, records⟩
    · simp [none] at inCompletions
    · obtain ⟨only, completions, -, status, -⟩ := processFind_completionRecords node.req result
      rw [records, completions, List.mem_singleton] at inCompletions
      subst inCompletions
      refine ⟨status, node, ⟨lives.mem_submitted dequeued, find, owner⟩, ?_⟩
      rintro other ⟨otherIn, -, otherOwner⟩
      exact List.inj_on_of_nodup_map distinct otherIn (lives.mem_submitted dequeued)
        (otherOwner.trans owner.symm)
  · rcases lives.completionRecords_cases id with none | ⟨node, -, -, -, result, records⟩
    · simp [none]
    · obtain ⟨only, completions, -⟩ := processFind_completionRecords node.req result
      simp [records, completions]
  · have inRecords : Post.traverse comp ∈ recordsFor final.posted node.req.userData :=
      List.mem_filter.mpr ⟨member, by simp [Post.userData, same]⟩
    rcases lives.recordsFor_cases node.req.userData with
      empty | ⟨other, dequeued, owner, ⟨fiber, -, request, started⟩ | finished⟩
    · simp [empty] at inRecords
    · obtain rfl := List.inj_on_of_nodup_map distinct (lives.mem_submitted dequeued) submitted owner
      simp [started.of_isFind request find] at inRecords
    · obtain rfl := List.inj_on_of_nodup_map distinct (lives.mem_submitted dequeued) submitted owner
      obtain ⟨result, records⟩ := finished.of_isFind find
      obtain ⟨-, -, -, -, noTraverse⟩ := processFind_completionRecords other.req result
      exact noTraverse comp (records ▸ inRecords)
  · have dequeued : node ∈ final.dequeued := by
      rw [← lives.waiting, empty, List.append_nil] at submitted; exact submitted
    obtain ⟨result, records⟩ :=
      (lives.finished node dequeued (by simp [idle])).of_isFind find
    obtain ⟨comp, completions, -⟩ := processFind_completionRecords node.req result
    exact ⟨result, comp, records, by rw [records, completions]⟩

/-- A FindValue request with id 1, which `db_.find` answers with an error. -/
def findErrorRun : List Label :=
  [.start 1,
    .allocRequest { Request.zero with type := RequestType.reqFindValue.code, userDataLo := 1 },
    .submit (some ⟨8, { Request.zero with type := RequestType.reqFindValue.code, userDataLo := 1 }⟩),
    .fiber 0 .advance, .fiber 0 .advance, .fiber 0 (.found .error)]

theorem findRequests_answered_error :
    ∃ final, (fifoCreate []).run findErrorRun = some final ∧
      (final.submitted.map fun node => node.req.userData).Nodup ∧
      (∀ comp, .completion comp ∈ final.posted →
          (comp.status = .statusOk ∨ comp.status = .statusNotFound ∨
            comp.status = .statusError) ∧
          ∃! node, node ∈ final.submitted ∧ node.req.IsFind ∧
            node.req.userData = comp.userData) ∧
        (∀ id, ((recordsFor final.posted id).filterMap Post.completionRecord).length ≤ 1) ∧
        (∀ node ∈ final.submitted, node.req.IsFind →
          ∀ comp, .traverse comp ∈ final.posted → comp.userData ≠ node.req.userData) ∧
        (final.waiting = [] → final.processing = [] →
          ∀ node ∈ final.submitted, node.req.IsFind →
            ∃ result comp, recordsFor final.posted node.req.userData =
                (processFind node.req result).filterMap Emit.record ∧
              (recordsFor final.posted node.req.userData).filterMap Post.completionRecord =
                [comp]) :=
  ⟨_, rfl, by decide,
    @findRequests_answered [] (by decide) findErrorRun (by decide) _ rfl (by decide)⟩

/-- In every run of callers, `start` and fibers in which no allocation fails
and the submitted requests have pairwise distinct ids, the records with the
id of a submitted traversal are `TRAVERSE_MORE` records, each large value
right before its record, then at most one `TRAVERSE_END` with nothing after
it, and none of them is on the completion queue; once the fiber that
dequeued the traversal has returned from `process_traverse`, its
`TRAVERSE_END`, whose `value_len` is 0, is there. -/
theorem traverse_records_shape {outcomes : List Bool} (noFailure : false ∉ outcomes)
    {labels : List Label} (running : ∀ label ∈ labels, label.keepsRunning) {final : Bridge}
    (ran : (fifoCreate outcomes).run labels = some final)
    (distinct : (final.submitted.map fun node => node.req.userData).Nodup)
    {node : RequestNode} (submitted : node ∈ final.submitted) (traversal : node.req.IsTraverse) :
    ∃ walked, (∀ post ∈ walked, post.IsWalkRecord) ∧
      (recordsFor final.posted node.req.userData = walked ∨
        recordsFor final.posted node.req.userData =
          walked ++ [.traverse (traverseEnd node.req)]) ∧
      (node ∈ final.dequeued → node ∉ final.processing →
        recordsFor final.posted node.req.userData =
          walked ++ [.traverse (traverseEnd node.req)]) := by
  have lives := (Bridge.run_serving noFailure running ran).lives distinct
  rcases lives.recordsFor_cases node.req.userData with
    empty | ⟨other, dequeued, owner, ⟨fiber, inPool, request, started⟩ | finished⟩
  · refine ⟨[], nofun, .inl empty, fun dequeued idle => ?_⟩
    obtain ⟨walked, -, ended⟩ := (lives.finished node dequeued idle).of_isTraverse traversal
    simp [empty] at ended
  · obtain rfl := List.inj_on_of_nodup_map distinct (lives.mem_submitted dequeued) submitted owner
    exact ⟨_, started.of_isTraverse request traversal, .inl rfl, fun _ idle =>
      absurd (List.mem_filterMap.mpr ⟨fiber, inPool, request⟩) idle⟩
  · obtain rfl := List.inj_on_of_nodup_map distinct (lives.mem_submitted dequeued) submitted owner
    obtain ⟨walked, walk, records⟩ := finished.of_isTraverse traversal
    exact ⟨walked, walk, .inr records, fun _ _ => records⟩

/-- A traversal with id 2, at the first address after the four queues. -/
def unresolvedTraverse : RequestNode :=
  ⟨8, { Request.zero with type := RequestType.reqTraverse.code, userDataLo := 2 }⟩

/-- The traversal `unresolvedTraverse`, whose prefix `db_.find` does not
resolve. -/
def unresolvedTraverseRun : List Label :=
  [.start 1, .allocRequest unresolvedTraverse.req, .submit (some unresolvedTraverse),
    .fiber 0 .advance, .fiber 0 .advance, .fiber 0 (.resolved false)]

theorem traverse_records_shape_unresolved :
    ∃ final, (fifoCreate []).run unresolvedTraverseRun = some final ∧
      (final.submitted.map fun node => node.req.userData).Nodup ∧
      unresolvedTraverse ∈ final.submitted ∧ unresolvedTraverse.req.IsTraverse ∧
      ∃ walked, (∀ post ∈ walked, post.IsWalkRecord) ∧
        (recordsFor final.posted unresolvedTraverse.req.userData = walked ∨
          recordsFor final.posted unresolvedTraverse.req.userData =
            walked ++ [.traverse (traverseEnd unresolvedTraverse.req)]) ∧
        (unresolvedTraverse ∈ final.dequeued → unresolvedTraverse ∉ final.processing →
          recordsFor final.posted unresolvedTraverse.req.userData =
            walked ++ [.traverse (traverseEnd unresolvedTraverse.req)]) :=
  ⟨_, rfl, by decide, by decide, by decide,
    @traverse_records_shape [] (by decide) unresolvedTraverseRun (by decide) _ rfl (by decide) _
      (by decide) (by decide)⟩

end NomadFifo
