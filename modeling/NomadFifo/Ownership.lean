import NomadFifo.Steps
import Mathlib.Tactic.Abel

/-!
# Who owns each allocation

Every address the run allocates (a request node, a completion, traverse or
large-value node, a queue entry, a queue wrapper) is at each moment held by
exactly one owner: a caller, a queue, or a fiber; or it has been released
with `std::free`, once; or no owner holds it any more, `Bridge.leaked`
(`ownership`).  Nothing leaks while the four queues exist, but
`ck_fifo_mpmc_deinit` hands back only the head entry of a queue, so what is
still queued when `fifo_destroy` runs stays allocated: the Shutdown requests
that a `stop()` left behind, for one (`destroy_leaves_shutdown_allocated`).

Each step is shown to move addresses between owners and to add the ones it
allocates (`Accounts`); the invariant then follows for every run.
-/

namespace NomadFifo

/-- The addresses a queue owns: its wrapper, its head entry, and each
queued entry with what it holds. -/
def Fifo.addrs {α : Type} (values : α → List Nat) (fifo : Fifo α) : List Nat :=
  fifo.wrapper :: fifo.stub :: fifo.items.flatMap fun item => item.1 :: values item.2

theorem Fifo.addrs_enqueue {α : Type} (values : α → List Nat) (fifo : Fifo α) (entry : Nat)
    (value : α) : (fifo.enqueue entry value).addrs values = fifo.addrs values ++ entry :: values value := by
  simp [Fifo.addrs, Fifo.enqueue]

/-- A dequeue hands the old head entry back and the value to the caller;
the queue keeps the rest. -/
theorem Fifo.addrs_dequeue {α : Type} (values : α → List Nat) {fifo rest : Fifo α} {value : α}
    {garbage : Nat} (dequeued : fifo.dequeue = some (value, garbage, rest)) :
    (↑(fifo.addrs values) : Multiset Nat) = ↑(rest.addrs values) + {garbage} + ↑(values value) := by
  unfold Fifo.dequeue at dequeued
  split at dequeued
  · cases dequeued
  · rename_i entry first others same
    cases dequeued
    simp only [Fifo.addrs, same, List.flatMap_cons, ← Multiset.cons_coe, ← Multiset.coe_add,
      ← Multiset.singleton_add, List.cons_append]
    abel

/-- The request node a fiber is processing. -/
def Fiber.addrs (fiber : Fiber) : List Nat :=
  fiber.request.toList.map RequestNode.addr

namespace Bridge

/-- What a queue's owned addresses are, for each of the four queues. -/
def queueAddrs (bridge : Bridge) : List Nat :=
  bridge.requestFifo.toList.flatMap (Fifo.addrs fun node => node.toList.map RequestNode.addr) ++
    bridge.completionFifo.toList.flatMap (Fifo.addrs fun node => [node.addr]) ++
    bridge.traverseFifo.toList.flatMap (Fifo.addrs fun node => [node.addr]) ++
    bridge.largeValueFifo.toList.flatMap (Fifo.addrs fun node => [node.addr])

/-- Every address an owner holds: the callers, the four queues, and the
fibers. -/
def owned (bridge : Bridge) : List Nat :=
  bridge.held.map Held.addr ++ bridge.queueAddrs ++ bridge.pool.flatMap Fiber.addrs

/-- Each address, where it is now: owned, released, or leaked. -/
def accounted (bridge : Bridge) : Multiset Nat :=
  ↑(bridge.owned ++ bridge.heap.freed ++ bridge.leaked)

/-- From `before` to `after`, addresses only moved, and the ones allocated
in between were added; `extra` are the addresses of the fiber that takes
the step, which the pool records only after it. -/
def Accounts (before : Bridge) (beforeExtra : List Nat) (after : Bridge)
    (afterExtra : List Nat) : Prop :=
  before.heap.next ≤ after.heap.next ∧
    after.accounted + ↑afterExtra =
      before.accounted + ↑beforeExtra +
        ↑(List.range' before.heap.next (after.heap.next - before.heap.next))

theorem Accounts.refl (bridge : Bridge) (extra : List Nat) : Accounts bridge extra bridge extra :=
  ⟨le_refl _, by simp⟩

theorem Accounts.trans {first second third : Bridge} {firstExtra secondExtra thirdExtra : List Nat}
    (early : Accounts first firstExtra second secondExtra)
    (late : Accounts second secondExtra third thirdExtra) :
    Accounts first firstExtra third thirdExtra := by
  refine ⟨early.1.trans late.1, ?_⟩
  have joined : List.range' first.heap.next (second.heap.next - first.heap.next) ++
      List.range' second.heap.next (third.heap.next - second.heap.next) =
        List.range' first.heap.next (third.heap.next - first.heap.next) := by
    have middle := List.range'_append first.heap.next (second.heap.next - first.heap.next)
      (third.heap.next - second.heap.next) 1
    rwa [Nat.one_mul, Nat.add_sub_cancel' early.1, Nat.sub_add_sub_cancel late.1 early.1] at middle
  rw [late.2, early.2, ← joined, ← Multiset.coe_add, add_assoc]

private theorem coe_held_erase {held : List Held} {item : Held} (member : item ∈ held) :
    (↑(held.map Held.addr) : Multiset Nat) = ↑((held.erase item).map Held.addr) + {item.addr} := by
  rw [Multiset.coe_eq_coe.mpr ((List.perm_cons_erase member).map Held.addr), add_comm]
  simp

theorem allocRequest_accounts (bridge : Bridge) (req : Request) :
    Accounts bridge [] (bridge.allocRequest req) [] := by
  rcases Heap.alloc_cases bridge.heap with allocated | allocated <;>
    simp only [Accounts, allocRequest, allocated, accounted, owned, queueAddrs] <;>
    refine ⟨by omega, ?_⟩ <;>
    simp [Held.addr, ← Multiset.coe_add, ← Multiset.cons_coe, ← Multiset.singleton_add]
  abel

theorem release_accounts {bridge : Bridge} {held : Held} (member : held ∈ bridge.held) :
    Accounts bridge [] (bridge.release held) [] := by
  refine ⟨le_refl _, ?_⟩
  simp only [release, free, Heap.free, accounted, owned, queueAddrs]
  simp [coe_held_erase member, ← Multiset.coe_add, ← Multiset.cons_coe, ← Multiset.singleton_add]
  abel

theorem pollRecord_accounts (bridge : Bridge) (queue : RecordQueue) :
    Accounts bridge [] (bridge.pollRecord queue) [] := by
  unfold pollRecord
  split
  · exact .refl _ _
  · split
    · exact .refl _ _
    · rename_i fifo found _ node garbage rest dequeued
      have moved := Fifo.addrs_dequeue (fun node : CompletionNode => [node.addr]) dequeued
      cases queue <;> simp only [recordFifo] at found <;> refine ⟨le_refl _, ?_⟩ <;>
        simp [setRecordFifo, free, Heap.free, accounted, owned, queueAddrs, found, moved,
          RecordQueue.held, Held.addr, ← Multiset.coe_add, ← Multiset.cons_coe,
          ← Multiset.singleton_add] <;> abel

theorem pollLargeValue_accounts (bridge : Bridge) :
    Accounts bridge [] bridge.pollLargeValue [] := by
  unfold pollLargeValue
  split
  · exact .refl _ _
  · split
    · exact .refl _ _
    · rename_i fifo found _ node garbage rest dequeued
      have moved := Fifo.addrs_dequeue (fun node : LargeValueNode => [node.addr]) dequeued
      refine ⟨le_refl _, ?_⟩
      simp [free, Heap.free, accounted, owned, queueAddrs, found, moved, Held.addr,
        ← Multiset.coe_add, ← Multiset.cons_coe, ← Multiset.singleton_add]
      abel

theorem handOver_accounts {bridge given : Bridge} {node : Option RequestNode}
    (handed : bridge.handOver node = some given) :
    Accounts bridge [] given (node.toList.map RequestNode.addr) := by
  cases node with
  | none => cases handed; exact .refl _ _
  | some node =>
      simp only [handOver, Option.ite_none_right_eq_some, Option.some.injEq] at handed
      obtain ⟨member, rfl⟩ := handed
      refine ⟨le_refl _, ?_⟩
      simp [accounted, owned, queueAddrs, coe_held_erase member, Held.addr,
        ← Multiset.coe_add, ← Multiset.singleton_add]
      abel

theorem submit_accounts (bridge : Bridge) (node : Option RequestNode) :
    Accounts bridge (node.toList.map RequestNode.addr) (bridge.submit node) [] := by
  rcases Heap.alloc_cases bridge.heap with allocated | allocated
  · cases node <;> refine ⟨by simp [submit, allocated, Heap.free], ?_⟩ <;>
      simp [submit, allocated, accounted, owned, queueAddrs, Heap.free, ← Multiset.coe_add,
        ← Multiset.cons_coe, ← Multiset.singleton_add]
    abel
  · simp only [Accounts, submit, allocated, enqueueRequest]
    split <;> rename_i found <;> refine ⟨by simp, ?_⟩ <;>
      simp [accounted, owned, queueAddrs, found, Fifo.addrs_enqueue, ← Multiset.coe_add,
        ← Multiset.cons_coe, ← Multiset.singleton_add] <;> abel

/-! ## The controlling thread -/

theorem start_accounts {bridge : Bridge} (settled : bridge.Settled) (idle : bridge.control = .idle)
    (numWorkers : Nat) : Accounts bridge [] (bridge.start numWorkers) [] := by
  unfold start
  split
  · exact .refl _ _
  · rename_i running
    have empty := settled.stopped idle (by simpa using running)
    have fresh : ∀ count, (List.replicate count Fiber.loop).flatMap Fiber.addrs = [] := by
      simp [List.flatMap_eq_nil_iff, List.mem_replicate, Fiber.addrs, Fiber.request]
    refine ⟨le_refl _, ?_⟩
    simp [accounted, owned, queueAddrs, empty, fresh]

theorem stop_accounts (bridge : Bridge) : Accounts bridge [] bridge.stop [] := by
  unfold Bridge.stop
  split
  · exact ⟨le_refl _, by simp [accounted, owned, queueAddrs]⟩
  · exact .refl _ _

theorem sendShutdown_accounts (bridge : Bridge) :
    Accounts bridge [] bridge.sendShutdown [] := by
  rcases Heap.alloc_cases bridge.heap with allocated | allocated
  · exact ⟨by simp [sendShutdown, allocated],
      by simp [sendShutdown, allocated, accounted, owned, queueAddrs]⟩
  · rcases Heap.alloc_cases ⟨bridge.heap.next + 1, bridge.heap.freed, bridge.heap.outcomes.tail⟩
      with second | second
    · refine ⟨by simp [sendShutdown, allocated, second, Heap.free], ?_⟩
      simp [sendShutdown, allocated, second, Heap.free, accounted, owned, queueAddrs,
        ← Multiset.coe_add, ← Multiset.cons_coe, ← Multiset.singleton_add]
      abel
    · simp only [Accounts, sendShutdown, allocated, second, enqueueRequest]
      have twoMore : bridge.heap.next + 1 + 1 - bridge.heap.next = 2 := by omega
      split <;> rename_i found <;> refine ⟨by dsimp only; omega, ?_⟩ <;>
        simp [accounted, owned, queueAddrs, found, Fifo.addrs_enqueue, twoMore, List.range'_succ,
          ← Multiset.coe_add, ← Multiset.cons_coe, ← Multiset.singleton_add] <;> abel

theorem stopJoin_accounts {bridge : Bridge} (exited : bridge.pool.all (· == .exited)) :
    Accounts bridge [] { bridge with pool := [], numWorkers := 0, control := .idle } [] := by
  have silent : bridge.pool.flatMap Fiber.addrs = [] := by
    simp only [List.all_eq_true, beq_iff_eq] at exited
    simp only [List.flatMap_eq_nil_iff]
    intro fiber member
    simp [exited fiber member, Fiber.addrs, Fiber.request]
  refine ⟨le_refl _, ?_⟩
  simp [accounted, owned, queueAddrs, silent]

/-- `ck_fifo_mpmc_wrapper_destroy` frees the head entry and the wrapper and
leaks the rest; the queue itself is dropped by `destroy`, so until then its
addresses count twice. -/
theorem destroyFifo_accounted {α : Type} (bridge : Bridge) (values : α → List Nat)
    (fifo : Option (Fifo α)) :
    (bridge.destroyFifo values fifo).accounted =
      bridge.accounted + ↑(fifo.toList.flatMap (Fifo.addrs values)) := by
  cases fifo <;> simp [destroyFifo, free, Heap.free, accounted, owned, queueAddrs, Fifo.addrs,
    ← Multiset.coe_add, ← Multiset.cons_coe, ← Multiset.singleton_add]
  abel

theorem destroyFifo_next {α : Type} (bridge : Bridge) (values : α → List Nat)
    (fifo : Option (Fifo α)) : (bridge.destroyFifo values fifo).heap.next = bridge.heap.next := by
  cases fifo <;> rfl

theorem destroy_accounts (bridge : Bridge) : Accounts bridge [] bridge.destroy [] := by
  refine ⟨by simp [destroy, destroyFifo_next], ?_⟩
  have dropped : bridge.destroy.accounted + ↑bridge.queueAddrs =
      bridge.accounted + ↑bridge.queueAddrs := by
    have freed : bridge.destroy.accounted + ↑bridge.queueAddrs =
        ((((bridge.destroyFifo (fun node => node.toList.map RequestNode.addr)
          bridge.requestFifo).destroyFifo (fun node => [node.addr]) bridge.completionFifo).destroyFifo
            (fun node => [node.addr]) bridge.traverseFifo).destroyFifo
              (fun node => [node.addr]) bridge.largeValueFifo).accounted := by
      simp [destroy, destroyFifo_eq, accounted, owned, queueAddrs, ← Multiset.coe_add]
      abel
    rw [freed]
    simp only [destroyFifo_accounted, queueAddrs, ← Multiset.coe_add, add_assoc]
  simpa [destroy, destroyFifo_next] using dropped

/-! ## The fibers -/

theorem Accounts.withExtra {before after : Bridge} (moves : Accounts before [] after [])
    (extra : List Nat) : Accounts before extra after extra := by
  refine ⟨moves.1, ?_⟩
  have sums := congrArg (· + (↑extra : Multiset Nat)) moves.2
  simp only [Multiset.coe_nil, add_zero] at sums
  rw [sums]
  abel

theorem free_accounts (bridge : Bridge) (addr : Nat) :
    Accounts bridge [addr] (bridge.free addr) [] :=
  ⟨le_refl _, by
    simp [free, Heap.free, accounted, owned, queueAddrs, ← Multiset.coe_add, ← Multiset.cons_coe,
      ← Multiset.singleton_add]
    abel⟩

theorem enqueueRecord_heap (bridge : Bridge) (queue : RecordQueue) (entry : Nat)
    (node : CompletionNode) : (bridge.enqueueRecord queue entry node).heap = bridge.heap := by
  unfold enqueueRecord; split <;> cases queue <;> rfl

theorem enqueueLargeValue_heap (bridge : Bridge) (entry : Nat) (node : LargeValueNode) :
    (bridge.enqueueLargeValue entry node).heap = bridge.heap := by
  unfold enqueueLargeValue; split <;> rfl

theorem enqueueRecord_accounts (bridge : Bridge) (queue : RecordQueue) (entry : Nat)
    (node : CompletionNode) :
    (bridge.enqueueRecord queue entry node).accounted =
      bridge.accounted + ↑[entry, node.addr] := by
  unfold enqueueRecord
  split <;> rename_i found <;> cases queue <;> simp only [recordFifo] at found <;>
    simp [setRecordFifo, accounted, owned, queueAddrs, found, Fifo.addrs_enqueue,
      ← Multiset.coe_add, ← Multiset.cons_coe, ← Multiset.singleton_add] <;> abel

theorem enqueueLargeValue_accounts (bridge : Bridge) (entry : Nat) (node : LargeValueNode) :
    (bridge.enqueueLargeValue entry node).accounted =
      bridge.accounted + ↑[entry, node.addr] := by
  unfold enqueueLargeValue
  split <;> rename_i found <;>
    simp [accounted, owned, queueAddrs, found, Fifo.addrs_enqueue, ← Multiset.coe_add,
      ← Multiset.cons_coe, ← Multiset.singleton_add] <;> abel

theorem perform_accounts (bridge : Bridge) (emit : Emit) :
    Accounts bridge [] (bridge.perform emit) [] := by
  have twice : ∀ after : Bridge, after.heap.next = bridge.heap.next + 2 →
      after.accounted = bridge.accounted + ↑[bridge.heap.next + 1, bridge.heap.next] →
      Accounts bridge [] after [] := fun after next accounted =>
    ⟨by omega, by
      rw [accounted, next, show bridge.heap.next + 2 - bridge.heap.next = 2 by omega]
      simp [List.range'_succ, ← Multiset.cons_coe, ← Multiset.singleton_add]
      abel⟩
  have once : ∀ after : Bridge, after.heap.next = bridge.heap.next + 1 →
      after.accounted = bridge.accounted + ↑[bridge.heap.next] → Accounts bridge [] after [] :=
    fun after next accounted => ⟨by omega, by simp [accounted, next]⟩
  have freedNode : ∀ rest : List Bool,
      ({ bridge with
        heap := (Heap.free ⟨bridge.heap.next + 1, bridge.heap.freed, rest⟩ bridge.heap.next) } :
          Bridge).accounted = bridge.accounted + ↑[bridge.heap.next] := by
    intro rest
    simp [accounted, owned, queueAddrs, Heap.free, ← Multiset.coe_add, ← Multiset.cons_coe,
      ← Multiset.singleton_add]
    abel
  cases emit with
  | postCompletion comp | postTraverse comp =>
      simp only [perform, postCompletion, postTraverse, postRecord]
      rcases Heap.alloc_cases bridge.heap with allocated | allocated <;> simp only [allocated]
      · exact .refl _ _
      · rcases Heap.alloc_cases ⟨bridge.heap.next + 1, bridge.heap.freed, bridge.heap.outcomes.tail⟩
          with second | second <;> simp only [second]
        · exact once _ rfl (freedNode _)
        · exact twice _ (by simp [enqueueRecord_heap]) (enqueueRecord_accounts _ _ _ _)
  | postLargeValue lo hi data =>
      simp only [perform, postLargeValue]
      split
      · exact .refl _ _
      · rcases Heap.alloc_cases bridge.heap with allocated | allocated <;> simp only [allocated]
        · exact .refl _ _
        · rcases Heap.alloc_cases
              ⟨bridge.heap.next + 1, bridge.heap.freed, bridge.heap.outcomes.tail⟩
            with second | second <;> simp only [second]
          · exact once _ rfl (freedNode _)
          · exact twice _ (by simp [enqueueLargeValue_heap])
              (enqueueLargeValue_accounts _ _ _)

theorem performAll_accounts (bridge : Bridge) (emits : List Emit) :
    Accounts bridge [] (bridge.performAll emits) [] := by
  induction emits generalizing bridge with
  | nil => exact .refl _ _
  | cons emit rest inductionHypothesis =>
      exact (perform_accounts bridge emit).trans (inductionHypothesis _)

/-- The dequeue of `worker_fiber` frees the old head entry and hands the
request node to the fiber, which frees it at once unless it processes it. -/
theorem dispatch_accounts (bridge : Bridge) :
    Accounts bridge [] bridge.dispatch.2 bridge.dispatch.1.addrs := by
  unfold dispatch
  split
  · exact .refl _ _
  · rename_i fifo found
    split
    · exact .refl _ _
    · rename_i garbage rest dequeued
      have moved := Fifo.addrs_dequeue (fun node : Option RequestNode =>
        node.toList.map RequestNode.addr) dequeued
      refine ⟨le_refl _, ?_⟩
      simp [free, Heap.free, accounted, owned, queueAddrs, found, moved, Fiber.addrs,
        Fiber.request, ← Multiset.coe_add, ← Multiset.cons_coe, ← Multiset.singleton_add]
      abel
    · rename_i node garbage rest dequeued
      have moved := Fifo.addrs_dequeue (fun node : Option RequestNode =>
        node.toList.map RequestNode.addr) dequeued
      have taken : Accounts bridge []
          ({ bridge with requestFifo := some rest, dequeued := bridge.dequeued ++ [node] }.free
            garbage) [node.addr] := by
        refine ⟨le_refl _, ?_⟩
        simp [free, Heap.free, accounted, owned, queueAddrs, found, moved,
          ← Multiset.coe_add, ← Multiset.cons_coe, ← Multiset.singleton_add]
        abel
      split <;> first
        | exact taken
        | exact taken.trans (free_accounts _ _)

theorem workerStep_accounts {bridge mid : Bridge} {fiber after : Fiber} {event : FiberEvent}
    (stepped : bridge.workerStep fiber event = some (after, mid)) :
    Accounts bridge fiber.addrs mid after.addrs := by
  have finish : ∀ (emits : List Emit) (node : RequestNode),
      Accounts bridge [node.addr] ((bridge.performAll emits).free node.addr) [] :=
    fun emits node => ((performAll_accounts bridge emits).withExtra _).trans (free_accounts _ _)
  cases workerStep_iff.mp stepped with
  | check => split <;> exact .refl _ _
  | dispatch => exact dispatch_accounts bridge
  | found node result => exact finish _ node
  | resolved node => exact .refl _ _
  | unresolved node => rw [endTraverse_eq]; exact finish _ node
  | walk node machine walkEvent => exact (performAll_accounts bridge _).withExtra _
  | walkEnd node machine => rw [endTraverse_eq]; exact finish _ node

/-- Setting one fiber of the pool swaps its addresses for the new ones. -/
theorem flatMap_set_addrs : ∀ {pool : List Fiber} {index : Nat} {old : Fiber},
    pool[index]? = some old → ∀ new : Fiber,
      (↑((pool.set index new).flatMap Fiber.addrs) : Multiset Nat) + ↑old.addrs =
        ↑(pool.flatMap Fiber.addrs) + ↑new.addrs
  | [], _, _, found, _ => by simp at found
  | head :: tail, 0, old, found, new => by
      simp only [List.getElem?_cons_zero, Option.some.injEq] at found
      subst found
      simp only [List.set_cons_zero, List.flatMap_cons, ← Multiset.coe_add]
      abel
  | head :: tail, index + 1, old, found, new => by
      simp only [List.getElem?_cons_succ] at found
      have rest := flatMap_set_addrs found new
      simp only [List.set_cons_succ, List.flatMap_cons, ← Multiset.coe_add, add_assoc, rest]

theorem accounted_pool (bridge : Bridge) (pool : List Fiber) :
    ({ bridge with pool } : Bridge).accounted + ↑(bridge.pool.flatMap Fiber.addrs) =
      bridge.accounted + ↑(pool.flatMap Fiber.addrs) := by
  simp [accounted, owned, queueAddrs, ← Multiset.coe_add]
  abel

/-- Every step only moves addresses between owners, and adds the ones it
allocates. -/
theorem step_accounts {bridge after : Bridge} {label : Label} (settled : bridge.Settled)
    (stepped : bridge.step label = some after) : Accounts bridge [] after [] := by
  cases (step_iff.mp stepped).2 with
  | allocRequest req => exact allocRequest_accounts _ _
  | submit handed => exact (handOver_accounts handed).trans (submit_accounts _ _)
  | poll queue => exact pollRecord_accounts _ _
  | pollLargeValue => exact pollLargeValue_accounts _
  | free member => exact release_accounts member
  | start numWorkers idle => exact start_accounts settled idle _
  | stop => exact stop_accounts _
  | stopSend => exact sendShutdown_accounts bridge
  | stopJoin _ exited => exact stopJoin_accounts exited
  | destroy => exact destroy_accounts _
  | @fiber index event fiber next mid found worked =>
      have moves := workerStep_accounts worked
      have samePool := (workerStep_controlFrame worked).pool
      have swapped := flatMap_set_addrs found next
      have pooled := accounted_pool mid (mid.pool.set index next)
      rw [samePool] at pooled
      refine ⟨moves.1, (add_left_inj (↑(bridge.pool.flatMap Fiber.addrs) + ↑fiber.addrs :
        Multiset Nat)).mp ?_⟩
      calc _ = (({ mid with pool := bridge.pool.set index next } : Bridge).accounted +
              ↑(bridge.pool.flatMap Fiber.addrs)) + ↑fiber.addrs := by simp [samePool, add_assoc]
        _ = mid.accounted + (↑((bridge.pool.set index next).flatMap Fiber.addrs) +
              ↑fiber.addrs) := by rw [pooled, add_assoc]
        _ = (mid.accounted + ↑next.addrs) + ↑(bridge.pool.flatMap Fiber.addrs) := by
              rw [swapped]; abel
        _ = _ := by rw [moves.2]; simp only [Multiset.coe_nil, add_zero]; abel

/-! ## Every run -/

/-- `ck_fifo_mpmc_wrapper_create` owns what it allocates, or frees the
wrapper when the stub cannot be allocated. -/
theorem createFifo_accounts {α : Type} (heap : Heap) (values : α → List Nat)
    (earlier : Multiset Nat) (counted : earlier + ↑heap.freed = ↑(List.range heap.next)) :
    earlier + ↑((createFifo heap : Option (Fifo α) × Heap).1.toList.flatMap (Fifo.addrs values)) +
        ↑(createFifo heap : Option (Fifo α) × Heap).2.freed =
      ↑(List.range (createFifo heap : Option (Fifo α) × Heap).2.next) := by
  rcases Heap.alloc_cases heap with allocated | allocated
  · simpa [createFifo, allocated] using counted
  · rcases Heap.alloc_cases ⟨heap.next + 1, heap.freed, heap.outcomes.tail⟩ with second | second
    · simp [createFifo, allocated, second, Heap.free, List.range_succ, ← counted,
        ← Multiset.coe_add, ← Multiset.cons_coe, ← Multiset.singleton_add]
      abel
    · simp [createFifo, allocated, second, Fifo.addrs, List.range_succ, ← counted,
        ← Multiset.coe_add, ← Multiset.cons_coe, ← Multiset.singleton_add]
      abel

theorem fifoCreate_accounted (outcomes : List Bool) :
    (fifoCreate outcomes).accounted = ↑(List.range (fifoCreate outcomes).heap.next) := by
  have first := createFifo_accounts ⟨0, [], outcomes⟩
    (fun node : Option RequestNode => node.toList.map RequestNode.addr) 0 (by simp)
  have second := createFifo_accounts (createFifo ⟨0, [], outcomes⟩ :
    Option (Fifo (Option RequestNode)) × Heap).2 (fun node : CompletionNode => [node.addr]) _ first
  have third := createFifo_accounts (createFifo (createFifo ⟨0, [], outcomes⟩ :
    Option (Fifo (Option RequestNode)) × Heap).2 : Option (Fifo CompletionNode) × Heap).2
      (fun node : CompletionNode => [node.addr]) _ second
  have fourth := createFifo_accounts (createFifo (createFifo (createFifo ⟨0, [], outcomes⟩ :
    Option (Fifo (Option RequestNode)) × Heap).2 : Option (Fifo CompletionNode) × Heap).2 :
      Option (Fifo CompletionNode) × Heap).2 (fun node : LargeValueNode => [node.addr]) _ third
  simp only [fifoCreate]
  rw [← fourth]
  simp [accounted, owned, queueAddrs, ← Multiset.coe_add]
  abel

/-- Allocated addresses are accounted for, and the pool is settled. -/
theorem step_ownership {bridge after : Bridge} {label : Label}
    (holds : bridge.Settled ∧ bridge.accounted = ↑(List.range bridge.heap.next))
    (stepped : bridge.step label = some after) :
    after.Settled ∧ after.accounted = ↑(List.range after.heap.next) := by
  obtain ⟨grows, moved⟩ := step_accounts holds.1 stepped
  refine ⟨step_settled holds.1 stepped, ?_⟩
  have joined := List.range'_append_1 0 bridge.heap.next (after.heap.next - bridge.heap.next)
  rw [Nat.zero_add, Nat.sub_add_cancel grows] at joined
  rw [List.range_eq_range', ← joined, ← Multiset.coe_add, ← List.range_eq_range', ← holds.2]
  simpa using moved

end Bridge

/-- In every run, each address allocated so far (a request node, a
completion, traverse or large-value node, a queue entry or wrapper) is held
by exactly one owner, a caller, a queue or a fiber, or has been released
with `std::free`, or is leaked; no address is released twice; and once
`fifo_destroy` has returned, the callers are the only owners left. -/
theorem ownership {outcomes : List Bool} {labels : List Label} {final : Bridge}
    (ran : (fifoCreate outcomes).run labels = some final) :
    (final.owned ++ final.heap.freed ++ final.leaked).Perm (List.range final.heap.next) ∧
      final.heap.freed.Nodup ∧
      (final.control = .destroyed → final.owned = final.held.map Held.addr) := by
  have holds : final.Settled ∧ final.accounted = ↑(List.range final.heap.next) :=
    Bridge.run_induction (fun _ _ _ (_ : True) holds stepped => Bridge.step_ownership holds stepped)
      (fun _ _ => trivial) ⟨Bridge.fifoCreate_settled outcomes, Bridge.fifoCreate_accounted outcomes⟩
      ran
  have perm : (final.owned ++ final.heap.freed ++ final.leaked).Perm (List.range final.heap.next) :=
    Multiset.coe_eq_coe.mp holds.2
  refine ⟨perm, ((List.nodup_range _).perm perm.symm).sublist ?_, fun destroyed => ?_⟩
  · exact (List.sublist_append_right _ _).trans (List.sublist_append_left _ _)
  · obtain ⟨empty, request, completion, traverse, large⟩ := holds.1.destroyed destroyed
    simp [Bridge.owned, Bridge.queueAddrs, empty, request, completion, traverse, large]

/-- `start(1)`; `stop()`, whose only fiber sees the flag cleared before the
Shutdown request is sent; then `fifo_destroy`. -/
def staleShutdownDestroyRun : List Label :=
  [.start 1, .stop, .fiber 0 .advance, .stopSend, .stopJoin, .destroy]

theorem ownership_stale_shutdown :
    ∃ final, (fifoCreate []).run staleShutdownDestroyRun = some final ∧
      (final.owned ++ final.heap.freed ++ final.leaked).Perm (List.range final.heap.next) ∧
        final.heap.freed.Nodup ∧
        (final.control = .destroyed → final.owned = final.held.map Held.addr) :=
  ⟨_, rfl, @ownership [] staleShutdownDestroyRun _ rfl⟩

/-- The Shutdown request that `stop()` left queued (address 8, after the
four queues' wrappers and stubs) is neither released nor held by a caller
once `fifo_destroy` has returned. -/
theorem destroy_leaves_shutdown_allocated :
    ∃ final, (fifoCreate []).run staleShutdownDestroyRun = some final ∧
      final.control = .destroyed ∧ final.held = [] ∧ 8 < final.heap.next ∧
        8 ∉ final.heap.freed :=
  ⟨_, rfl, rfl, rfl, by decide, by decide⟩

end NomadFifo
