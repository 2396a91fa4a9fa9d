import NomadFifo.Records

/-!
# The trie collaborator

The bridge consumes two capabilities of the trie engine, which is not part
of this repository: `db_.find`, which resolves a key at a version, and
`db_.traverse`, which walks a subtree and calls a `TraverseMachine` on entry
to and exit from every node.

* A `Node` keeps the fields of `mpt::Node` the bridge reads.
* A `FindResult` is everything `db_.find` can hand back, an exception
  included; the bridge treats it as an arbitrary answer.
* A `WalkEvent` is one call of the traversal into the machine.
* `Trie.traverse` is the traversal the design describes: a depth-first walk
  that visits every descendant and skips a subtree only when `down` returns
  false.  `Trie.walk` lists the calls of a walk that skips nothing.
-/

namespace NomadFifo

/-- The fields of an `mpt::Node` the bridge reads: `has_value()` and
`value()`, the data bytes (`data_data()`, `bitpacked.data_len`) and the
compressed path segment (`path_nibble_view()`). -/
structure Node where
  value : Option (List UInt8)
  data : List UInt8
  path : List Nibble
  deriving DecidableEq

/-- What `db_.find` hands back: an error result, an exception, or a cursor
whose node may be null. -/
inductive FindResult where
  | error
  | thrown
  | cursor (node : Option Node)
  deriving DecidableEq

/-- One call of the traversal into the machine; the branch `none` is
`mpt::INVALID_BRANCH`, which marks the start node of the walk. -/
inductive WalkEvent where
  | down (branch : Option Nibble) (node : Node)
  | up (branch : Option Nibble) (node : Node)
  deriving DecidableEq

/-- `mpt::TraverseMachine`: the two callbacks the traversal makes, over the
machine's state. -/
structure TraverseMachine (σ : Type) where
  down : σ → Option Nibble → Node → Bool × σ
  up : σ → Option Nibble → Node → σ

/-- Modelled from the spec: the subtree below the node a prefix resolves to,
with the branch nibble of each child. -/
inductive Trie where
  | node (node : Node) (children : List (Nibble × Trie))

namespace Trie

/-- Modelled from the spec: `db_.traverse(cursor, machine, version, limit)`
visits every descendant depth first, calls `down` on entry and `up` on exit,
and skips the children of a node whose `down` returned false.  The limit the
bridge passes is not a cap on the visits in this description. -/
def traverse {σ : Type} (machine : TraverseMachine σ) (_limit : Nat) :
    σ → Option Nibble → Trie → σ
  | state, branch, .node root children =>
      let (descend, entered) := machine.down state branch root
      machine.up
        (if descend then traverseChildren machine _limit entered children else entered)
        branch root
where
  /-- The children of one node, in branch order. -/
  traverseChildren {σ : Type} (machine : TraverseMachine σ) (limit : Nat) :
      σ → List (Nibble × Trie) → σ
    | state, [] => state
    | state, (branch, child) :: rest =>
        traverseChildren machine limit (traverse machine limit state (some branch) child) rest

/-- The calls of a walk that descends everywhere, in order. -/
def walk (branch : Option Nibble) : Trie → List WalkEvent
  | .node root children =>
      .down branch root :: walkChildren children ++ [.up branch root]
where
  walkChildren : List (Nibble × Trie) → List WalkEvent
    | [] => []
    | (branch, child) :: rest => walk (some branch) child ++ walkChildren rest

/-- The number of nodes of the subtree that carry a value. -/
def valueCount : Trie → Nat
  | .node root children =>
      (if root.value.isSome then 1 else 0) + valueCountChildren children
where
  valueCountChildren : List (Nibble × Trie) → Nat
    | [] => 0
    | (_, child) :: rest => valueCount child + valueCountChildren rest

end Trie

end NomadFifo
