import NomadFifo.Manager

/-!
# What the processors enqueue

With the result queues created and no allocation failing, every posting call
enqueues its record (`Bridge.performAll_of_noFailure`).  This module reads
off what that means for the two processors.

* `processFind_posts`: a Find enqueues one completion, whose status,
  value, length and hash are the ones the design gives each answer of the
  lookup, preceded by the value on the large-value queue when it is longer
  than 256 bytes, except that `post_large_value` drops a value longer than
  `UINT32_MAX` bytes.
* `walk_posts`: on a depth-first walk the machine's path is the one the
  design describes at every call, `up` never subtracts below zero, and the
  records are one `TRAVERSE_MORE` per value-bearing node in visit order.
* `processTraverse_moreCount`: against the traversal of the design, the
  number of `TRAVERSE_MORE` records is the number of value-bearing nodes,
  whatever `traverse_limit` says.
-/

namespace NomadFifo

open Bridge

/-! ## `process_find` -/

/-- The status the design gives each answer of the lookup: `Error` for an
error result or an exception, `NotFound` for no node or a node without a
value, `Ok` otherwise. -/
def findStatus : FindResult → ResultStatus
  | .error | .thrown => .statusError
  | .cursor none => .statusNotFound
  | .cursor (some node) => if node.value.isSome then .statusOk else .statusNotFound

/-- The hash field the design gives each answer: the node's data for a
`REQ_FIND_NODE` that found a value and exactly 32 data bytes, zero
otherwise. -/
def findHash (req : Request) : FindResult → Fin 32 → UInt8
  | .cursor (some node) =>
      if node.value.isSome ∧ req.type = RequestType.reqFindNode.code ∧ node.data.length = 32
      then copyBytes node.data else fun _ => 0
  | _ => fun _ => 0

/-- How a found value reaches the caller: inline with its length when it
fits, otherwise the sentinel in the completion and the value on the
large-value queue, which `post_large_value` leaves out beyond `UINT32_MAX`
bytes. -/
structure ValueDelivery (req : Request) (value : List UInt8) (comp : Completion)
    (large : List LargeValue) : Prop where
  inline : value.length ≤ inlineCapacity →
    comp.valueLen.toNat = value.length ∧
      (∀ index : Fin 256, index.val < value.length → comp.value index = value.getD index 0) ∧
      large = []
  outOfBand : inlineCapacity < value.length →
    comp.valueLen = largeValueSentinel ∧
      large = if value.length ≤ uint32Max then
        [⟨req.userDataLo, req.userDataHi, UInt32.ofNat value.length, value⟩] else []

private theorem withValue_delivery (req : Request) (comp : Completion) (value : List UInt8) :
    ValueDelivery req value (comp.withValue value)
      (if inlineCapacity < value.length ∧ value.length ≤ uint32Max then
        [⟨req.userDataLo, req.userDataHi, UInt32.ofNat value.length, value⟩] else []) := by
  constructor
  · intro inline
    refine ⟨withValue_valueLen_of_inline comp value inline, fun index _ => ?_, ?_⟩
    · simp [Completion.withValue, inline]
    · simp [show ¬ inlineCapacity < value.length by omega]
  · intro large
    refine ⟨by simp [Completion.withValue, show ¬ value.length ≤ inlineCapacity by omega], ?_⟩
    by_cases fits : value.length ≤ uint32Max <;> simp [large, fits]

/-- The bytes past the value length are zero: an inline value is followed
by the zero initialisation, and the sentinel leaves no room past it. -/
private theorem withValue_tail_zero (comp : Completion) (value : List UInt8)
    (index : Fin 256)
    (past : (comp.withValue value).valueLen.toNat ≤ index.val) :
    (comp.withValue value).value index = 0 := by
  by_cases inline : value.length ≤ inlineCapacity
  · rw [withValue_valueLen_of_inline comp value inline] at past
    simp [Completion.withValue, inline, List.getD_eq_getElem?_getD,
      List.getElem?_eq_none (show value.length ≤ index.val by omega)]
  · simp [Completion.withValue, inline, largeValueSentinel] at past
    omega

/-- A Find, with the result queues created and no allocation failing,
enqueues exactly one completion.  It carries the request's id and the status
of `findStatus`; a found value is delivered as `ValueDelivery` says, with
its large value enqueued just before the completion; the hash field is
`findHash`; the value bytes past the value length are zero. -/
theorem processFind_posts {bridge : Bridge} (noFailure : bridge.heap.NoFailure)
    (created : bridge.ResultQueuesExist) (req : Request) (result : FindResult) :
    ∃ (comp : Completion) (large : List LargeValue),
      (bridge.performAll (processFind req result)).posted =
          bridge.posted ++ large.map Post.largeValue ++ [.completion comp] ∧
        comp.userData = req.userData ∧
        comp.status = findStatus result ∧
        (∀ node value, result = .cursor (some node) → node.value = some value →
          ValueDelivery req value comp large) ∧
        (findStatus result ≠ .statusOk → large = []) ∧
        comp.merkleHash = findHash req result ∧
        ∀ index : Fin 256, comp.valueLen.toNat ≤ index.val → comp.value index = 0 := by
  rw [(performAll_of_noFailure noFailure created _).1]
  have blankTail : ∀ (status : ResultStatus) (index : Fin 256),
      ({ Completion.blank req.userDataLo req.userDataHi with status }).valueLen.toNat ≤
          index.val →
        ({ Completion.blank req.userDataLo req.userDataHi with status }).value index = 0 :=
    fun _ _ _ => rfl
  cases result with
  | error | thrown =>
      exact ⟨{ Completion.blank req.userDataLo req.userDataHi with status := .statusError },
        [], by simp [processFind, Emit.record], rfl, rfl, nofun, fun _ => rfl, rfl, blankTail _⟩
  | cursor node =>
      cases node with
      | none =>
          exact ⟨{ Completion.blank req.userDataLo req.userDataHi with
            status := .statusNotFound }, [], by simp [processFind, Emit.record], rfl, rfl,
            nofun, fun _ => rfl, rfl, blankTail _⟩
      | some node =>
          cases hasValue : node.value with
          | none =>
              refine ⟨{ Completion.blank req.userDataLo req.userDataHi with
                status := .statusNotFound }, [], by simp [processFind, hasValue, Emit.record],
                rfl, by simp [findStatus, hasValue], ?_, fun _ => rfl,
                by funext index; simp [findHash, hasValue, Completion.blank], blankTail _⟩
              rintro _ _ ⟨⟩ atValue
              simp [hasValue] at atValue
          | some value =>
              have delivered := withValue_delivery req
                { Completion.blank req.userDataLo req.userDataHi with status := .statusOk } value
              refine ⟨foundCompletion req node value,
                if inlineCapacity < value.length ∧ value.length ≤ uint32Max then
                  [⟨req.userDataLo, req.userDataHi, UInt32.ofNat value.length, value⟩] else [],
                by simp [processFind, hasValue, filterMap_largeValueEmits, Emit.record],
                foundCompletion_userData req node value, ?_, ?_,
                by simp [findStatus, hasValue], ?_, fun index past => ?_⟩
              · unfold foundCompletion
                split <;> simp [findStatus, hasValue]
              · rintro _ _ ⟨⟩ atValue
                cases hasValue.symm.trans atValue
                unfold foundCompletion
                split
                · exact ⟨delivered.inline, delivered.outOfBand⟩
                · exact delivered
              · unfold foundCompletion findHash
                by_cases nodeHash :
                    req.type = RequestType.reqFindNode.code ∧ node.data.length = 32 <;>
                  simp [nodeHash, hasValue, Completion.blank]
              · rw [foundCompletion_valueLen] at past
                rw [foundCompletion_value]
                exact withValue_tail_zero _ value index past

/-- An error answer on a freshly created bridge. -/
theorem processFind_posts_error :
    (fifoCreate []).heap.NoFailure ∧ (fifoCreate []).ResultQueuesExist ∧
      ∃ (comp : Completion) (large : List LargeValue),
        ((fifoCreate []).performAll (processFind Request.zero .error)).posted =
            (fifoCreate []).posted ++ large.map Post.largeValue ++ [.completion comp] ∧
          comp.userData = Request.zero.userData ∧
          comp.status = findStatus .error ∧
          (∀ node value, FindResult.error = .cursor (some node) → node.value = some value →
            ValueDelivery Request.zero value comp large) ∧
          (findStatus .error ≠ .statusOk → large = []) ∧
          comp.merkleHash = findHash Request.zero .error ∧
          ∀ index : Fin 256, comp.valueLen.toNat ≤ index.val → comp.value index = 0 :=
  ⟨fifoCreate_noFailure, fifoCreate_resultQueuesExist,
    processFind_posts fifoCreate_noFailure fifoCreate_resultQueuesExist _ _⟩

private theorem processFind_records_oversized (req : Request) (node : Node)
    (value : List UInt8) (hasValue : node.value = some value)
    (beyond : uint32Max < value.length) (plain : req.type ≠ RequestType.reqFindNode.code) :
    (processFind req (.cursor (some node))).filterMap Emit.record =
      [.completion { Completion.blank req.userDataLo req.userDataHi with
        status := .statusOk, valueLen := largeValueSentinel }] := by
  have notInline : ¬ value.length ≤ inlineCapacity := by
    simp only [uint32Max, inlineCapacity] at *; omega
  simp [processFind, hasValue, largeValueEmits, Emit.record, foundCompletion, plain,
    Completion.withValue, notInline, beyond, show inlineCapacity < value.length by omega]

/-- A found value of `2^32` bytes gets the sentinel, but `post_large_value`
drops it: the completion is all that is enqueued. -/
theorem processFind_drops_oversized_value :
    ((fifoCreate []).performAll
        (processFind { Request.zero with type := RequestType.reqFindValue.code }
          (.cursor (some ⟨some (List.replicate (2 ^ 32) 0), [], []⟩)))).posted =
      [.completion { Completion.blank 0 0 with
        status := .statusOk, valueLen := largeValueSentinel }] := by
  rw [(performAll_of_noFailure fifoCreate_noFailure fifoCreate_resultQueuesExist _).1,
    processFind_records_oversized _ _ _ rfl
      (by rw [List.length_replicate]; decide) (by decide)]
  rfl

/-! ## The traverse machine on a walk -/

/-- What the design says is enqueued for a value-bearing node reported at
`path`: one `TRAVERSE_MORE` record with the request's id, the value inline
when it fits and the sentinel otherwise, and the packed path; before it,
when the value does not fit inline, the value on the large-value queue,
unless it is longer than `UINT32_MAX` bytes. -/
def expectedMore (req : Request) (path : List Nibble) (value : List UInt8) : List Post :=
  (if inlineCapacity < value.length ∧ value.length ≤ uint32Max then
      [.largeValue ⟨req.userDataLo, req.userDataHi, UInt32.ofNat value.length, value⟩]
    else []) ++
    [.traverse
      { userDataLo := req.userDataLo
        userDataHi := req.userDataHi
        status := .statusTraverseMore
        valueLen :=
          if value.length ≤ inlineCapacity then UInt32.ofNat value.length else largeValueSentinel
        value := if value.length ≤ inlineCapacity then copyBytes value else fun _ => 0
        merkleHash := packPath path }]

private theorem filterMap_sendNode (req : Request) (path : List Nibble) (node : Node) :
    ((FifoTraverseMachine.mk req.userDataLo req.userDataHi path).sendNode node).filterMap
        Emit.record =
      expectedMore req path (node.value.getD []) := by
  simp only [FifoTraverseMachine.sendNode, List.filterMap_append, filterMap_largeValueEmits,
    expectedMore]
  by_cases inline : (node.value.getD []).length ≤ inlineCapacity
  · simp [Emit.record, FifoTraverseMachine.moreRecord, Completion.withValue, inline,
      Completion.blank, show ¬ inlineCapacity < (node.value.getD []).length by omega]
  · by_cases fits : (node.value.getD []).length ≤ uint32Max <;>
      simp [Emit.record, FifoTraverseMachine.moreRecord, Completion.withValue, inline,
        Completion.blank, fits, show inlineCapacity < (node.value.getD []).length by omega]

private theorem filterMap_visitPosts (req : Request) (visits : List (List Nibble × Node)) :
    (visitPosts req.userDataLo req.userDataHi visits).filterMap Emit.record =
      visits.flatMap fun visit => expectedMore req visit.1 (visit.2.value.getD []) := by
  induction visits with
  | nil => rfl
  | cons visit rest inductionHypothesis =>
      simp only [visitPosts, List.flatMap_cons, List.filterMap_append] at inductionHypothesis ⊢
      rw [filterMap_sendNode, inductionHypothesis]

private theorem walk_records {bridge : Bridge} (noFailure : bridge.heap.NoFailure)
    (created : bridge.ResultQueuesExist) (req : Request) (trie : Trie) :
    (bridge.performAll ((traverseMachine req).run (trie.walk none)).2).posted =
      bridge.posted ++ (valueVisits req.keyNibbles [] none trie).flatMap
        fun visit => expectedMore req visit.1 (visit.2.value.getD []) := by
  rw [(performAll_of_noFailure noFailure created _).1, (run_walk trie _).2.2]
  exact congrArg _ (filterMap_visitPosts req _)

/-- On a depth-first walk from the node the prefix resolves to: before every
call the machine's path is the one `expectedTrace` gives in the words of the
design (so after each `up` it is back to what it was before the matching
`down`), `up` never subtracts below zero, and with no allocation failing the
records enqueued are `expectedMore` for each value-bearing node, in visit
order. -/
theorem walk_posts {bridge : Bridge} (noFailure : bridge.heap.NoFailure)
    (created : bridge.ResultQueuesExist) (req : Request) (trie : Trie) :
    (traverseMachine req).trace (trie.walk none) = expectedTrace req.keyNibbles [] none trie ∧
      (∀ path branch node,
        (path, .up (some branch) node) ∈ (traverseMachine req).trace (trie.walk none) →
          node.path.length + 1 ≤ path.length) ∧
      (bridge.performAll ((traverseMachine req).run (trie.walk none)).2).posted =
        bridge.posted ++ (valueVisits req.keyNibbles [] none trie).flatMap
          fun visit => expectedMore req visit.1 (visit.2.value.getD []) :=
  ⟨(run_walk trie (traverseMachine req)).1, run_walk_prefixSize trie _,
    walk_records noFailure created req trie⟩

/-- A walk over a single node without a value, on a freshly created
bridge. -/
theorem walk_posts_leaf :
    (fifoCreate []).heap.NoFailure ∧ (fifoCreate []).ResultQueuesExist ∧
      (traverseMachine Request.zero).trace ((Trie.node ⟨none, [], []⟩ []).walk none) =
          expectedTrace Request.zero.keyNibbles [] none (.node ⟨none, [], []⟩ []) ∧
        (∀ path branch node,
          (path, .up (some branch) node) ∈
              (traverseMachine Request.zero).trace ((Trie.node ⟨none, [], []⟩ []).walk none) →
            node.path.length + 1 ≤ path.length) ∧
        ((fifoCreate []).performAll
            ((traverseMachine Request.zero).run ((Trie.node ⟨none, [], []⟩ []).walk none)).2).posted =
          (fifoCreate []).posted ++
            (valueVisits Request.zero.keyNibbles [] none (.node ⟨none, [], []⟩ [])).flatMap
              fun visit => expectedMore Request.zero visit.1 (visit.2.value.getD []) :=
  ⟨fifoCreate_noFailure, fifoCreate_resultQueuesExist,
    walk_posts fifoCreate_noFailure fifoCreate_resultQueuesExist _ _⟩

/-! ## The number of `TRAVERSE_MORE` records -/

/-- A `TRAVERSE_MORE` record on the traverse queue. -/
def Post.IsMore : Post → Bool
  | .traverse comp => comp.status == .statusTraverseMore
  | _ => false

theorem valueVisits_length : ∀ (trie : Trie) (prefixPath : List Nibble)
    (ancestors : List (Nibble × Node)) (branch : Option Nibble),
    (valueVisits prefixPath ancestors branch trie).length = trie.valueCount
  | .node root children, prefixPath, ancestors, branch => by
      have inner := visitChildren_length children prefixPath
      cases branch <;> by_cases reported : root.value.isSome <;>
        simp [valueVisits, Trie.valueCount, reported, inner] <;> omega
where
  visitChildren_length : ∀ (children : List (Nibble × Trie)) (prefixPath : List Nibble)
      (ancestors : List (Nibble × Node)),
      (valueVisits.visitChildren prefixPath ancestors children).length =
        Trie.valueCount.valueCountChildren children
    | [], _, _ => rfl
    | (branch, child) :: rest, prefixPath, ancestors => by
        simp [valueVisits.visitChildren, Trie.valueCount.valueCountChildren,
          valueVisits_length child, visitChildren_length rest]

private theorem countP_expectedMore (req : Request) (path : List Nibble)
    (value : List UInt8) : (expectedMore req path value).countP Post.IsMore = 1 := by
  by_cases large : inlineCapacity < value.length ∧ value.length ≤ uint32Max <;>
    simp [expectedMore, large, Post.IsMore]

/-- Against the traversal of the design, which visits every descendant, and
with no allocation failing, `process_traverse` enqueues one `TRAVERSE_MORE`
record per value-bearing node of the subtree, whatever `traverse_limit`
is. -/
theorem processTraverse_moreCount {bridge : Bridge} (noFailure : bridge.heap.NoFailure)
    (created : bridge.ResultQueuesExist) (req : Request) (trie : Trie) :
    ∃ posts, (bridge.performAll (processTraverse req (some trie))).posted =
        bridge.posted ++ posts ∧ posts.countP Post.IsMore = trie.valueCount := by
  refine ⟨_, (performAll_of_noFailure noFailure created _).1, ?_⟩
  simp only [processTraverse, traverse_fifoMachine, List.nil_append, List.filterMap_append,
    (run_walk trie (traverseMachine req)).2.2, List.countP_append]
  simp only [traverseMachine]
  rw [filterMap_visitPosts]
  simp [List.countP_flatMap, Function.comp_def, countP_expectedMore, Emit.record, Post.IsMore,
    traverseEnd, valueVisits_length]

/-- A node whose value is `2^32` bytes long: its record carries the
sentinel, but no large value is enqueued before it. -/
theorem walk_drops_oversized_value :
    ((fifoCreate []).performAll
        ((traverseMachine Request.zero).run
          ((Trie.node ⟨some (List.replicate (2 ^ 32) 0), [], []⟩ []).walk none)).2).posted =
      [.traverse { Completion.blank 0 0 with
        status := .statusTraverseMore, valueLen := largeValueSentinel,
        merkleHash := packPath [] }] := by
  rw [walk_records fifoCreate_noFailure fifoCreate_resultQueuesExist]
  have long : (List.replicate (2 ^ 32) (0 : UInt8)).length = 2 ^ 32 := List.length_replicate _ _
  simp only [valueVisits, Option.isSome_some, if_true, valueVisits.visitChildren,
    List.append_nil, List.flatMap_cons, List.flatMap_nil, Option.getD_some, expectedMore, long]
  rw [if_neg (by decide), if_neg (by decide)]
  rfl

/-- A traversal whose limit is 1, over a subtree of two value-bearing nodes:
with no allocation failing, two `TRAVERSE_MORE` records are enqueued. -/
theorem processTraverse_exceeds_limit :
    effectiveLimit { Request.zero with type := RequestType.reqTraverse.code, traverseLimit := 1 }
        = 1 ∧
      ((fifoCreate []).performAll
          (processTraverse
            { Request.zero with type := RequestType.reqTraverse.code, traverseLimit := 1 }
            (some (.node ⟨some [1], [], []⟩ [(0, .node ⟨some [2], [], []⟩ [])])))).posted.countP
        Post.IsMore = 2 := by
  obtain ⟨posts, posted, counted⟩ :=
    processTraverse_moreCount fifoCreate_noFailure fifoCreate_resultQueuesExist
      { Request.zero with type := RequestType.reqTraverse.code, traverseLimit := 1 }
      (.node ⟨some [1], [], []⟩ [(0, .node ⟨some [2], [], []⟩ [])])
  refine ⟨by decide, ?_⟩
  rw [posted, List.countP_append, counted]
  rfl

end NomadFifo
