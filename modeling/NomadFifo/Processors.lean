import NomadFifo.PathPacking
import NomadFifo.Collaborator

/-!
# The Find and Traverse processors

`process_find` and `FifoTraverseMachine` turn what the collaborator answers
into calls of `post_large_value`, `post_completion` and `post_traverse`.
Here those calls are values of `Emit`, listed in the order the source makes
them; `Manager` gives each call its effect on the queues.

* `processFind` builds the one completion of a Find and, for a value longer
  than 256 bytes, the large value posted before it.
* `FifoTraverseMachine` keeps the path of the current node: `down` appends
  the branch nibble and the node's path segment, `up` cuts the path back to
  the length recomputed from that segment.
* `FifoTraverseMachine.run` feeds the machine a list of calls;
  `run_walk` says what it does on a depth-first walk of a trie, each call
  seeing the path `expectedTrace` gives in the words of the design.
-/

namespace NomadFifo

/-- A call of one of the three posting functions of `FifoManager`. -/
inductive Emit where
  | postCompletion (comp : Completion)
  | postTraverse (comp : Completion)
  | postLargeValue (userDataLo userDataHi : UInt64) (data : List UInt8)
  deriving DecidableEq

/-- The call `post_large_value` that both processors make for a value that
does not fit inline. -/
def largeValueEmits (lo hi : UInt64) (value : List UInt8) : List Emit :=
  if inlineCapacity < value.length then [.postLargeValue lo hi value] else []

/-! ## `process_find` -/

/-- The completion of a Find that found a value: the value inline or the
sentinel, and for `REQ_FIND_NODE` the node's data when it is 32 bytes. -/
def foundCompletion (req : Request) (node : Node) (value : List UInt8) : Completion :=
  let found :=
    ({ Completion.blank req.userDataLo req.userDataHi with status := .statusOk }).withValue value
  if req.type = RequestType.reqFindNode.code ∧ node.data.length = 32 then
    { found with merkleHash := copyBytes node.data }
  else found

theorem foundCompletion_userData (req : Request) (node : Node) (value : List UInt8) :
    (foundCompletion req node value).userData = req.userData := by
  unfold foundCompletion; split <;> exact Completion.withValue_userData _ value

theorem foundCompletion_valueLen (req : Request) (node : Node) (value : List UInt8) :
    (foundCompletion req node value).valueLen =
      (({ Completion.blank req.userDataLo req.userDataHi with
        status := .statusOk }).withValue value).valueLen := by
  unfold foundCompletion; split <;> rfl

theorem foundCompletion_value (req : Request) (node : Node) (value : List UInt8) :
    (foundCompletion req node value).value =
      (({ Completion.blank req.userDataLo req.userDataHi with
        status := .statusOk }).withValue value).value := by
  unfold foundCompletion; split <;> rfl

/-- `FifoManager::process_find`: the calls it makes for one answer of
`db_.find`.  An exception from the lookup is caught and reported as an
error, like an error result. -/
def processFind (req : Request) (result : FindResult) : List Emit :=
  let comp := Completion.blank req.userDataLo req.userDataHi
  match result with
  | .error | .thrown => [.postCompletion { comp with status := .statusError }]
  | .cursor none => [.postCompletion { comp with status := .statusNotFound }]
  | .cursor (some node) =>
      match node.value with
      | none => [.postCompletion { comp with status := .statusNotFound }]
      | some value =>
          largeValueEmits req.userDataLo req.userDataHi value ++
            [.postCompletion (foundCompletion req node value)]

/-! ## `FifoTraverseMachine` -/

/-- `FifoTraverseMachine`: the correlation id and the path `path_` of the
node the walk is at.  The manager it posts through is the `Bridge` the calls
are applied to. -/
structure FifoTraverseMachine where
  lo : UInt64
  hi : UInt64
  path : List Nibble
  deriving DecidableEq

namespace FifoTraverseMachine

/-- The `TRAVERSE_MORE` record `send_node` posts for a node with value
`value`, reporting the path `path_`. -/
def moreRecord (machine : FifoTraverseMachine) (value : List UInt8) : Completion :=
  { ({ Completion.blank machine.lo machine.hi with status := .statusTraverseMore }).withValue
      value with merkleHash := packPath machine.path }

theorem moreRecord_userData (machine : FifoTraverseMachine) (value : List UInt8) :
    (machine.moreRecord value).userData = (machine.lo, machine.hi) :=
  Completion.withValue_userData _ value

/-- `send_node`. -/
def sendNode (machine : FifoTraverseMachine) (node : Node) : List Emit :=
  let value := node.value.getD []
  largeValueEmits machine.lo machine.hi value ++
    [.postTraverse (machine.moreRecord value)]

/-- `down`: the start node keeps the prefix as its path; any other node
extends it by the branch nibble and the node's own segment.  A node with a
value is reported.  The walk always continues. -/
def down (machine : FifoTraverseMachine) (branch : Option Nibble) (node : Node) :
    Bool × FifoTraverseMachine × List Emit :=
  let entered :=
    match branch with
    | none => machine
    | some nibble => { machine with path := machine.path ++ nibble :: node.path }
  (true, entered, if node.value.isSome then entered.sendNode node else [])

/-- The `prefix_size` of `up`.  The source subtracts in `unsigned`; the
model subtracts in `Nat`, and `run_walk` shows that a walk never goes
below zero here. -/
def prefixSize (machine : FifoTraverseMachine) (branch : Option Nibble) (node : Node) :
    Nat :=
  match branch with
  | none => 0
  | some _ => machine.path.length - node.path.length - 1

/-- `up`: keep the first `prefix_size` nibbles of the path. -/
def up (machine : FifoTraverseMachine) (branch : Option Nibble) (node : Node) :
    FifoTraverseMachine :=
  { machine with path := machine.path.take (machine.prefixSize branch node) }

/-- One call of the walk: the machine afterwards and the posts it made. -/
def handle (machine : FifoTraverseMachine) : WalkEvent → FifoTraverseMachine × List Emit
  | .down branch node => (machine.down branch node).2
  | .up branch node => (machine.up branch node, [])

/-- A sequence of calls. -/
def run : FifoTraverseMachine → List WalkEvent → FifoTraverseMachine × List Emit
  | machine, [] => (machine, [])
  | machine, event :: rest =>
      let (next, posts) := machine.handle event
      let (final, later) := next.run rest
      (final, posts ++ later)

/-- Each call of a sequence, with the path `path_` holds just before it. -/
def trace : FifoTraverseMachine → List WalkEvent → List (List Nibble × WalkEvent)
  | _, [] => []
  | machine, event :: rest => (machine.path, event) :: (machine.handle event).1.trace rest

@[simp]
theorem run_nil (machine : FifoTraverseMachine) : machine.run [] = (machine, []) := rfl

@[simp]
theorem run_cons (machine : FifoTraverseMachine) (event : WalkEvent) (rest : List WalkEvent) :
    machine.run (event :: rest) =
      (((machine.handle event).1.run rest).1,
        (machine.handle event).2 ++ ((machine.handle event).1.run rest).2) := rfl

theorem run_append (machine : FifoTraverseMachine) (first second : List WalkEvent) :
    machine.run (first ++ second) =
      (((machine.run first).1.run second).1,
        (machine.run first).2 ++ ((machine.run first).1.run second).2) := by
  induction first generalizing machine with
  | nil => rfl
  | cons event rest inductionHypothesis =>
      simp [inductionHypothesis]

@[simp]
theorem trace_nil (machine : FifoTraverseMachine) : machine.trace [] = [] := rfl

theorem trace_append (machine : FifoTraverseMachine) (first second : List WalkEvent) :
    machine.trace (first ++ second) =
      machine.trace first ++ (machine.run first).1.trace second := by
  induction first generalizing machine with
  | nil => rfl
  | cons event rest inductionHypothesis =>
      simp [trace, inductionHypothesis]

end FifoTraverseMachine

open FifoTraverseMachine

/-! ## A depth-first walk, in the words of the design -/

/-- The nibbles the ancestors below the start contribute to the path: for
each, its branch nibble, then its path nibbles. -/
def chainPath : List (Nibble × Node) → List Nibble
  | [] => []
  | (branch, node) :: rest => branch :: node.path ++ chainPath rest

theorem chainPath_append_single (ancestors : List (Nibble × Node)) (branch : Nibble)
    (node : Node) :
    chainPath (ancestors ++ [(branch, node)]) = chainPath ancestors ++ branch :: node.path := by
  induction ancestors with
  | nil => simp [chainPath]
  | cons head rest inductionHypothesis => simp [chainPath, inductionHypothesis]

/-- Each call of a walk of `trie`, entered by `branch` below the ancestors
`ancestors`, with the path the design says `path_` holds just before it: the
prefix followed by the chain of the ancestors, the node itself included
before its `up`. -/
def expectedTrace (prefixPath : List Nibble) :
    List (Nibble × Node) → Option Nibble → Trie → List (List Nibble × WalkEvent)
  | ancestors, none, .node root children =>
      (prefixPath ++ chainPath ancestors, .down none root) ::
        expectedChildren prefixPath ancestors children ++
          [(prefixPath ++ chainPath ancestors, .up none root)]
  | ancestors, some branch, .node root children =>
      (prefixPath ++ chainPath ancestors, .down (some branch) root) ::
        expectedChildren prefixPath (ancestors ++ [(branch, root)]) children ++
          [(prefixPath ++ chainPath (ancestors ++ [(branch, root)]), .up (some branch) root)]
where
  expectedChildren (prefixPath : List Nibble) (ancestors : List (Nibble × Node)) :
      List (Nibble × Trie) → List (List Nibble × WalkEvent)
    | [] => []
    | (branch, child) :: rest =>
        expectedTrace prefixPath ancestors (some branch) child ++
          expectedChildren prefixPath ancestors rest

/-- The nodes of the walk that carry a value, in visit order, each with the
path its record should report: the prefix for the start node, the prefix
and the chain down to the node itself for any other. -/
def valueVisits (prefixPath : List Nibble) :
    List (Nibble × Node) → Option Nibble → Trie → List (List Nibble × Node)
  | ancestors, none, .node root children =>
      (if root.value.isSome then [(prefixPath ++ chainPath ancestors, root)] else []) ++
        visitChildren prefixPath ancestors children
  | ancestors, some branch, .node root children =>
      (if root.value.isSome then
        [(prefixPath ++ chainPath (ancestors ++ [(branch, root)]), root)] else []) ++
        visitChildren prefixPath (ancestors ++ [(branch, root)]) children
where
  visitChildren (prefixPath : List Nibble) (ancestors : List (Nibble × Node)) :
      List (Nibble × Trie) → List (List Nibble × Node)
    | [] => []
    | (branch, child) :: rest =>
        valueVisits prefixPath ancestors (some branch) child ++
          visitChildren prefixPath ancestors rest

/-- What `send_node` posts for each visited node, the machine standing at
that node's path. -/
def visitPosts (lo hi : UInt64) (visits : List (List Nibble × Node)) : List Emit :=
  visits.flatMap fun visit => (FifoTraverseMachine.mk lo hi visit.1).sendNode visit.2

theorem run_walk_some : ∀ (trie : Trie) (machine : FifoTraverseMachine) (pre : List Nibble)
    (ancestors : List (Nibble × Node)) (branch : Nibble),
    machine.path = pre ++ chainPath ancestors →
    machine.trace (trie.walk (some branch)) = expectedTrace pre ancestors (some branch) trie ∧
      (machine.run (trie.walk (some branch))).1 = machine ∧
      (machine.run (trie.walk (some branch))).2 =
        visitPosts machine.lo machine.hi (valueVisits pre ancestors (some branch) trie)
  | .node root children, machine, pre, ancestors, branch, atPath => by
      let entered : FifoTraverseMachine := { machine with path := machine.path ++ branch :: root.path }
      have enteredPath : entered.path = pre ++ chainPath (ancestors ++ [(branch, root)]) := by
        simp [entered, atPath, chainPath_append_single]
      obtain ⟨childTrace, childMachine, childPosts⟩ :=
        run_walkChildren children entered pre (ancestors ++ [(branch, root)]) enteredPath
      have handleDown : machine.handle (.down (some branch) root) =
          (entered, if root.value.isSome then entered.sendNode root else []) := rfl
      have restore : (entered.up (some branch) root) = machine := by
        have size : (machine.path ++ branch :: root.path).length - root.path.length - 1 =
            machine.path.length := by simp; omega
        simp only [up, prefixSize, entered, size, List.take_left']
      refine ⟨?_, ?_, ?_⟩
      · simp [Trie.walk, trace, handleDown, trace_append, childTrace, childMachine,
          expectedTrace, atPath, enteredPath]
      · simp only [Trie.walk, List.cons_append, run_cons, handleDown, run_append, childMachine]
        simp [handle, restore]
      · simp only [Trie.walk, List.cons_append, run_cons, handleDown, run_append, childMachine,
          childPosts]
        have enteredMk : entered = FifoTraverseMachine.mk machine.lo machine.hi
            (pre ++ chainPath (ancestors ++ [(branch, root)])) := by
          rw [← enteredPath]
        by_cases reported : root.value.isSome
        · simp [handle, valueVisits, visitPosts, reported, enteredMk]
        · simp [handle, valueVisits, visitPosts, reported]
where
  run_walkChildren : ∀ (children : List (Nibble × Trie)) (machine : FifoTraverseMachine)
      (pre : List Nibble) (ancestors : List (Nibble × Node)),
      machine.path = pre ++ chainPath ancestors →
      machine.trace (Trie.walk.walkChildren children) = expectedTrace.expectedChildren pre ancestors children ∧
        (machine.run (Trie.walk.walkChildren children)).1 = machine ∧
        (machine.run (Trie.walk.walkChildren children)).2 =
          visitPosts machine.lo machine.hi (valueVisits.visitChildren pre ancestors children)
    | [], machine, pre, ancestors, atPath => by
        simp [Trie.walk.walkChildren, expectedTrace.expectedChildren, valueVisits.visitChildren, visitPosts]
    | (branch, child) :: rest, machine, pre, ancestors, atPath => by
        obtain ⟨childTrace, childMachine, childPosts⟩ := run_walk_some child machine pre ancestors branch atPath
        obtain ⟨restTrace, restMachine, restPosts⟩ := run_walkChildren rest machine pre ancestors atPath
        simp only [Trie.walk.walkChildren, trace_append, run_append, childTrace, childMachine,
          childPosts, restTrace, restMachine, restPosts, expectedTrace.expectedChildren,
          valueVisits.visitChildren, visitPosts, List.flatMap_append, and_self]

/-- From the start node: the machine's path before every call is the one the
design describes, the walk ends with the path cleared by `up` at the start,
and the posts are those of the value-bearing nodes in visit order. -/
theorem run_walk (trie : Trie) (machine : FifoTraverseMachine) :
    machine.trace (trie.walk none) = expectedTrace machine.path [] none trie ∧
      (machine.run (trie.walk none)).1 = { machine with path := [] } ∧
      (machine.run (trie.walk none)).2 =
        visitPosts machine.lo machine.hi (valueVisits machine.path [] none trie) := by
  obtain ⟨root, children⟩ := trie
  have atPath : machine.path = machine.path ++ chainPath [] := by simp [chainPath]
  obtain ⟨childTrace, childMachine, childPosts⟩ :=
    run_walk_some.run_walkChildren children machine machine.path [] atPath
  have handleDown : machine.handle (.down none root) =
      (machine, if root.value.isSome then machine.sendNode root else []) := rfl
  refine ⟨?_, ?_, ?_⟩
  · simp [Trie.walk, trace, handleDown, trace_append, childTrace, childMachine, expectedTrace,
      chainPath]
  · have downStart : (machine.down none root).2.1 = machine := rfl
    simp [Trie.walk, handleDown, run_append, childMachine, handle, up, prefixSize, downStart]
  · simp only [Trie.walk, List.cons_append, run_cons, handleDown, run_append, childMachine,
      childPosts]
    by_cases reported : root.value.isSome
    · simp [handle, valueVisits, visitPosts, reported, chainPath]
    · simp [handle, valueVisits, visitPosts, reported, chainPath]

/-- In the design's trace, the path before `up (some b) n` ends with `b`
followed by the path of `n`. -/
theorem expectedTrace_up : ∀ (trie : Trie) (prefixPath : List Nibble)
    (ancestors : List (Nibble × Node)) (entry : Option Nibble) (path : List Nibble)
    (branch : Nibble) (node : Node),
    (path, .up (some branch) node) ∈ expectedTrace prefixPath ancestors entry trie →
      ∃ front, path = front ++ branch :: node.path
  | .node root children, prefixPath, ancestors, entry, path, branch, node, member => by
      cases entry with
      | none =>
          simp [expectedTrace] at member
          exact upChildren children prefixPath _ path branch node member
      | some entered =>
          simp [expectedTrace] at member
          rcases member with inner | ⟨same, rfl, rfl⟩
          · exact upChildren children prefixPath _ path branch node inner
          · exact ⟨prefixPath ++ chainPath ancestors, by
              rw [same, chainPath_append_single]; simp⟩
where
  upChildren : ∀ (children : List (Nibble × Trie)) (prefixPath : List Nibble)
      (ancestors : List (Nibble × Node)) (path : List Nibble) (branch : Nibble) (node : Node),
      (path, .up (some branch) node) ∈
          expectedTrace.expectedChildren prefixPath ancestors children →
        ∃ front, path = front ++ branch :: node.path
    | [], _, _, _, _, _, member => by simp [expectedTrace.expectedChildren] at member
    | (entered, child) :: rest, prefixPath, ancestors, path, branch, node, member => by
        simp only [expectedTrace.expectedChildren, List.mem_append] at member
        rcases member with inChild | inRest
        · exact expectedTrace_up child prefixPath ancestors _ path branch node inChild
        · exact upChildren rest prefixPath ancestors path branch node inRest

/-- `up` never subtracts below zero on a walk: at every `up (some b) n` the
path holds at least the segment of `n` and its branch nibble. -/
theorem run_walk_prefixSize (trie : Trie) (machine : FifoTraverseMachine)
    (path : List Nibble) (branch : Nibble) (node : Node)
    (member : (path, .up (some branch) node) ∈ machine.trace (trie.walk none)) :
    node.path.length + 1 ≤ path.length := by
  rw [(run_walk trie machine).1] at member
  obtain ⟨front, rfl⟩ := expectedTrace_up trie _ _ _ path branch node member
  simp

/-! ## `process_traverse` -/

/-- The machine `process_traverse` builds once the prefix resolves: the
request's id and the prefix nibbles as the path. -/
def traverseMachine (req : Request) : FifoTraverseMachine :=
  ⟨req.userDataLo, req.userDataHi, req.keyNibbles⟩

/-- `req.traverse_limit > 0 ? req.traverse_limit : 4096`. -/
def effectiveLimit (req : Request) : Nat :=
  if 0 < req.traverseLimit then req.traverseLimit.toNat else 4096

/-- The `TRAVERSE_END` record `process_traverse` posts last. -/
def traverseEnd (req : Request) : Completion :=
  { Completion.blank req.userDataLo req.userDataHi with
    status := .statusTraverseEnd, valueLen := 0 }

/-- `FifoTraverseMachine` as the `mpt::TraverseMachine` the collaborator
drives, with the posts made so far. -/
def fifoMachine : TraverseMachine (FifoTraverseMachine × List Emit) where
  down := fun state branch node =>
    let (descend, entered, sent) := state.1.down branch node
    (descend, (entered, state.2 ++ sent))
  up := fun state branch node => (state.1.up branch node, state.2)

/-- Driven by the traversal of the design, the machine does what it does on
the list of calls of a walk that descends everywhere, since `down` always
returns true. -/
theorem traverse_fifoMachine : ∀ (trie : Trie) (limit : Nat) (machine : FifoTraverseMachine)
    (posts : List Emit) (branch : Option Nibble),
    trie.traverse fifoMachine limit (machine, posts) branch =
      ((machine.run (trie.walk branch)).1, posts ++ (machine.run (trie.walk branch)).2)
  | .node root children, limit, machine, posts, branch => by
      have inner := traverseChildren_fifoMachine children limit
        (machine.down branch root).2.1 (posts ++ (machine.down branch root).2.2)
      simp only [Trie.traverse, fifoMachine, FifoTraverseMachine.down] at inner ⊢
      simp [inner, Trie.walk, FifoTraverseMachine.run_append, FifoTraverseMachine.handle,
        FifoTraverseMachine.down]
where
  traverseChildren_fifoMachine : ∀ (children : List (Nibble × Trie)) (limit : Nat)
      (machine : FifoTraverseMachine) (posts : List Emit),
      Trie.traverse.traverseChildren fifoMachine limit (machine, posts) children =
        ((machine.run (Trie.walk.walkChildren children)).1,
          posts ++ (machine.run (Trie.walk.walkChildren children)).2)
    | [], _, machine, posts => by simp [Trie.traverse.traverseChildren, Trie.walk.walkChildren]
    | (branch, child) :: rest, limit, machine, posts => by
        simp only [Trie.traverse.traverseChildren, Trie.walk.walkChildren,
          traverse_fifoMachine child limit machine posts (some branch),
          traverseChildren_fifoMachine rest limit, FifoTraverseMachine.run_append,
          List.append_assoc]

/-- `process_traverse` against the traversal of the design: the prefix
resolves to the subtree `start` or to nothing (an error result, an exception
or a null node), the walk runs to its end, and `TRAVERSE_END` follows. -/
def processTraverse (req : Request) (start : Option Trie) : List Emit :=
  (match start with
    | none => []
    | some trie =>
        (trie.traverse fifoMachine (effectiveLimit req) (traverseMachine req, []) none).2) ++
    [.postTraverse (traverseEnd req)]

end NomadFifo
