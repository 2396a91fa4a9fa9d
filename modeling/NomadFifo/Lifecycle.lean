import NomadFifo.Steps

/-!
# Stopping and starting again

`stop()` clears the flag before it enqueues its Shutdown requests, and a
fiber polls the flag at the head of its loop.

* `stop_returns`: `stop()` cannot hang.  From every state a run reaches
  inside `stop()`, the remaining Shutdown requests can be sent and every
  fiber stepped to its return (`Fiber.exitDistance` bounds the steps), and
  then `pool_.reset()` returns.
* `restart_meets_stale_shutdown`: a fiber that sees the flag cleared returns
  without taking a Shutdown request, which then stays queued.  The next
  `start()` sets the flag and spawns its fibers, and the first of them to
  dequeue takes the stale request and returns, with the flag still set.
-/

namespace NomadFifo

/-! ## `stop()` returns -/

/-- How many steps a fiber still takes once the flag is cleared, when the
lookup answers and a walk ends at its next step. -/
def Fiber.exitDistance : Fiber → Nat
  | .exited => 0
  | .loop => 1
  | .finding _ | .resolving _ | .walking _ _ => 2
  | .dequeuing => 3

/-- Setting an index to the value it holds changes nothing. -/
theorem set_of_getElem? {α : Type} {l : List α} {i : Nat} {a : α}
    (found : l[i]? = some a) : l.set i a = l := by
  apply List.ext_getElem?
  intro j
  rw [List.getElem?_set]
  split
  · subst_vars
    rw [if_pos (List.getElem?_eq_some_iff.mp found).1, found]
  · rfl

namespace Bridge

/-- Inside `stop()` the flag is cleared: the exchange comes first, and
nothing sets the flag again before `stop()` returns. -/
def FlagCleared (bridge : Bridge) : Prop :=
  ∀ remaining, bridge.control = .stopping remaining → bridge.running = false

theorem step_flagCleared {bridge after : Bridge} {label : Label} (cleared : bridge.FlagCleared)
    (stepped : bridge.step label = some after) : after.FlagCleared := by
  have kept : after.running = bridge.running → after.control = bridge.control →
      after.FlagCleared := fun running control remaining stopping =>
    running.trans (cleared remaining (control ▸ stopping))
  cases (step_iff.mp stepped).2 with
  | allocRequest req => exact kept (allocRequest_frame _ _).running (allocRequest_frame _ _).control
  | @submit node given handed =>
      exact kept ((submit_controlFrame given node).running.trans (handOver_frame handed).running)
        ((submit_controlFrame given node).control.trans (handOver_frame handed).control)
  | poll queue => exact kept (pollRecord_frame _ _).running (pollRecord_frame _ _).control
  | pollLargeValue => exact kept (pollLargeValue_frame _).running (pollLargeValue_frame _).control
  | free member => exact kept (release_frame _ _).running (release_frame _ _).control
  | start numWorkers idle =>
      unfold start
      split
      · exact cleared
      · exact fun _ stopping => nomatch idle.symm.trans stopping
  | stop idle =>
      unfold Bridge.stop
      split
      · exact fun _ _ => rfl
      · exact cleared
  | stopSend stopping =>
      exact fun _ _ => (sendShutdown_controlFrame bridge).running.trans (cleared _ stopping)
  | stopJoin stopping exited => exact fun _ stopping => nomatch stopping
  | destroy idle stopped => exact fun _ stopping => by simp [destroy] at stopping
  | fiber found worked =>
      exact kept (workerStep_controlFrame worked).running (workerStep_controlFrame worked).control

theorem dispatch_exitDistance (bridge : Bridge) : bridge.dispatch.1.exitDistance < 3 := by
  unfold dispatch
  repeat' split
  all_goals simp [Fiber.exitDistance]

/-- With the flag cleared, a fiber that has not returned has a step that
brings it closer to returning. -/
theorem exists_exitStep {bridge : Bridge} (cleared : bridge.running = false) {fiber : Fiber}
    (busy : fiber ≠ .exited) : ∃ event next mid, bridge.workerStep fiber event = some (next, mid) ∧
      next.exitDistance < fiber.exitDistance := by
  cases fiber with
  | loop => exact ⟨.advance, _, _, rfl, by simp [cleared, Fiber.exitDistance]⟩
  | dequeuing => exact ⟨.advance, _, _, rfl, dispatch_exitDistance bridge⟩
  | finding node => exact ⟨.found .error, _, _, rfl, by simp [Fiber.exitDistance]⟩
  | resolving node => exact ⟨.resolved false, _, _, rfl, by simp [Fiber.exitDistance]⟩
  | walking node machine => exact ⟨.walkEnd, _, _, rfl, by simp [Fiber.exitDistance]⟩
  | exited => exact absurd rfl busy

/-- With the flag cleared, fiber `index` can be stepped until it has
returned, and nothing else `stop()` looks at changes. -/
theorem fiber_exits (distance : Nat) {bridge : Bridge} {index : Nat} {fiber : Fiber}
    (alive : bridge.control ≠ .destroyed) (cleared : bridge.running = false)
    (found : bridge.pool[index]? = some fiber) (near : fiber.exitDistance < distance) :
    ∃ labels after, (∀ label ∈ labels, ∃ event, label = .fiber index event) ∧
      bridge.run labels = some after ∧ after.pool = bridge.pool.set index .exited ∧
      after.running = false ∧ after.control = bridge.control := by
  induction distance generalizing bridge fiber with
  | zero => omega
  | succ distance inductionHypothesis =>
      by_cases done : fiber = .exited
      · subst done
        exact ⟨[], bridge, nofun, rfl, (set_of_getElem? found).symm, cleared, rfl⟩
      obtain ⟨event, next, mid, worked, closer⟩ := exists_exitStep cleared done
      have frame := workerStep_controlFrame worked
      have bound := (List.getElem?_eq_some_iff.mp found).1
      obtain ⟨labels, after, only, ran, pool, running, control⟩ :=
        @inductionHypothesis { mid with pool := mid.pool.set index next } next
          (frame.control ▸ alive) (frame.running.trans cleared)
          (by simp only [frame.pool]; exact List.getElem?_set_self bound) (by omega)
      refine ⟨.fiber index event :: labels, after,
        List.forall_mem_cons.mpr ⟨⟨event, rfl⟩, only⟩, ?_, ?_, running,
        control.trans frame.control⟩
      · rw [run_cons, step_iff.mpr ⟨alive, .fiber found worked⟩]
        exact ran
      · rw [pool, frame.pool, List.set_set]

/-- With the flag cleared, the first `count` fibers of the pool can be
stepped, one after another, until each has returned. -/
theorem fibers_exit (count : Nat) {bridge : Bridge} (alive : bridge.control ≠ .destroyed)
    (cleared : bridge.running = false) (within : count ≤ bridge.pool.length) :
    ∃ labels after, (∀ label ∈ labels, ∃ index event, label = .fiber index event) ∧
      bridge.run labels = some after ∧ after.pool.length = bridge.pool.length ∧
      (∀ index < count, after.pool[index]? = some .exited) ∧
      after.running = false ∧ after.control = bridge.control := by
  induction count with
  | zero => exact ⟨[], bridge, nofun, rfl, rfl, fun _ below => absurd below (Nat.not_lt_zero _),
      cleared, rfl⟩
  | succ count inductionHypothesis =>
      obtain ⟨labels, mid, only, ran, length, exited, running, control⟩ :=
        inductionHypothesis (by omega)
      have bound : count < mid.pool.length := by omega
      obtain ⟨more, after, moreOnly, moreRan, pool, afterRunning, afterControl⟩ :=
        fiber_exits _ (control ▸ alive) running (List.getElem?_eq_getElem bound)
          (Nat.lt_succ_self _)
      refine ⟨labels ++ more, after, ?_, ?_, by rw [pool, List.length_set, length], ?_,
        afterRunning, afterControl.trans control⟩
      · exact List.forall_mem_append.mpr ⟨only, fun label member => ⟨count, moreOnly label member⟩⟩
      · rw [run_append, ran]
        exact moreRan
      · intro index below
        rw [pool, List.getElem?_set]
        split
        · simp [bound]
        · exact exited index (by omega)

/-- The loop of `stop()` runs to its end: each turn sends a Shutdown
request, or drops it when an allocation fails. -/
theorem shutdowns_sent (remaining : Nat) {bridge : Bridge}
    (stopping : bridge.control = .stopping remaining) (cleared : bridge.running = false) :
    ∃ after, bridge.run (List.replicate remaining .stopSend) = some after ∧
      after.control = .stopping 0 ∧ after.running = false := by
  induction remaining generalizing bridge with
  | zero => exact ⟨bridge, rfl, stopping, cleared⟩
  | succ remaining inductionHypothesis =>
      have alive : bridge.control ≠ .destroyed := by simp [stopping]
      obtain ⟨after, ran, done, running⟩ :=
        @inductionHypothesis { bridge.sendShutdown with control := .stopping remaining } rfl
          ((sendShutdown_controlFrame bridge).running.trans cleared)
      refine ⟨after, ?_, done, running⟩
      rw [List.replicate_succ, run_cons, step_iff.mpr ⟨alive, .stopSend stopping⟩]
      exact ran

end Bridge

/-- `stop()` cannot hang.  In every run from `fifo_create`, whatever the
interleaving and whichever allocations fail: from a state inside `stop()`,
the controlling thread and the fibers alone (the lookup answering, each walk
ending) can bring `stop()` to its end, `pool_.reset()` returning with every
fiber returned. -/
theorem stop_returns {outcomes : List Bool} {labels : List Label} {final : Bridge}
    {remaining : Nat} (ran : (fifoCreate outcomes).run labels = some final)
    (stopping : final.control = .stopping remaining) :
    ∃ more after, (∀ label ∈ more, label = .stopSend ∨ label = .stopJoin ∨
        ∃ index event, label = .fiber index event) ∧
      final.run more = some after ∧ after.control = .idle ∧ after.pool = [] := by
  have cleared : final.FlagCleared :=
    Bridge.run_induction (fun _ _ _ (_ : True) cleared stepped => Bridge.step_flagCleared cleared stepped)
      (fun _ _ => trivial) (fun _ stopping => by simp [fifoCreate] at stopping) ran
  obtain ⟨sent, sentRan, sentStopping, sentCleared⟩ :=
    Bridge.shutdowns_sent remaining stopping (cleared remaining stopping)
  obtain ⟨drain, drained, only, drainRan, length, exited, -, control⟩ :=
    Bridge.fibers_exit sent.pool.length (by simp [sentStopping]) sentCleared le_rfl
  have allExited : drained.pool.all (· == .exited) := by
    refine List.all_eq_true.mpr fun fiber member => ?_
    obtain ⟨index, found⟩ := List.mem_iff_getElem?.mp member
    have bound := (List.getElem?_eq_some_iff.mp found).1
    rw [exited index (length ▸ bound)] at found
    simp [← Option.some.inj found]
  refine ⟨List.replicate remaining .stopSend ++ drain ++ [.stopJoin],
    { drained with pool := [], numWorkers := 0, control := .idle }, ?_, ?_, rfl, rfl⟩
  · simp only [List.mem_append, List.mem_replicate, List.mem_singleton]
    rintro label ((⟨-, rfl⟩ | member) | rfl)
    · exact .inl rfl
    · exact .inr (.inr (only label member))
    · exact .inr (.inl rfl)
  · have joined := Bridge.step_iff.mpr ⟨by simp [control, sentStopping],
      Bridge.Stepped.stopJoin (control.trans sentStopping) allExited⟩
    rw [Bridge.run_append, Bridge.run_append, sentRan, Option.some_bind, drainRan, Option.some_bind,
      Bridge.run_cons, joined]
    rfl

/-- `start(1)` then `stop()`: inside `stop()`, one Shutdown request still to
send and the fiber at the head of its loop. -/
def stopInsideRun : List Label :=
  [.start 1, .stop]

theorem stop_returns_inside :
    ∃ final, (fifoCreate []).run stopInsideRun = some final ∧ final.control = .stopping 1 ∧
      ∃ more after, (∀ label ∈ more, label = .stopSend ∨ label = .stopJoin ∨
          ∃ index event, label = .fiber index event) ∧
        final.run more = some after ∧ after.control = .idle ∧ after.pool = [] :=
  ⟨_, rfl, rfl, @stop_returns [] stopInsideRun _ 1 rfl rfl⟩

/-- `start(1)`; `stop()`, whose only fiber sees the flag cleared before the
Shutdown request is sent; `start(1)` again. -/
def staleShutdownRun : List Label :=
  [.start 1, .stop, .fiber 0 .advance, .stopSend, .stopJoin, .start 1]

/-- After the run above the flag is set and the request queue holds the
Shutdown request of the earlier `stop()`; two steps later the only fiber of
the new pool has returned, and the flag is still set. -/
theorem restart_meets_stale_shutdown :
    ∃ restarted, (fifoCreate []).run staleShutdownRun = some restarted ∧
      restarted.running = true ∧
      (∃ fifo, restarted.requestFifo = some fifo ∧
        ∃ entry node, (entry, some node) ∈ fifo.items ∧ node.req = shutdownRequest) ∧
      ∃ final, restarted.run [.fiber 0 .advance, .fiber 0 .advance] = some final ∧
        final.running = true ∧ final.pool = [.exited] :=
  ⟨_, rfl, rfl, ⟨_, rfl, _, _, List.mem_singleton_self _, rfl⟩, _, rfl, rfl, rfl⟩

end NomadFifo
