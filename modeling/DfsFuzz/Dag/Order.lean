import DfsFuzz.Dag.PairsSound
import DfsFuzz.Dag.Resolve

/-!
Whether the novelty bits depend on the order in which the trace buffers were concatenated. The
vertices are the same as a multiset; the sort leaves vertices of one call in the order of their
events, and a concurrent pair is hashed in the order of its vertices.
-/

namespace DfsFuzz.Dag

end DfsFuzz.Dag
