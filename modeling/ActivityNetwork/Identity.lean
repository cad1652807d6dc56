/-!
# Identities

Sharing is decided by identity and never by looks: two workflows or resources that read the
same are still distinct unless they carry the same id.  Workflow and resource ids count what
has been made so far; node ids count within one network.

Ids are natural numbers here.  The 64-bit limit matters in two places only, the successor of
a node id and the written form of a network, and is stated there.
-/

namespace ActivityNetwork

/-- The largest number that an id, a duration or a size limit may have in written form: the
greatest 64-bit number. -/
def maxWord : Nat := 0xFFFFFFFFFFFFFFFF

/-- Identity of one constructed workflow. -/
structure WorkflowId where
  index : Nat
  deriving DecidableEq, Repr, Inhabited

namespace WorkflowId

/-- The text `expr_7`. -/
def text (id : WorkflowId) : String :=
  s!"expr_{id.index}"

end WorkflowId

/-- Identity of one contended resource. -/
structure ResourceId where
  index : Nat
  deriving DecidableEq, Repr, Inhabited

namespace ResourceId

/-- The text `res_2`. -/
def text (id : ResourceId) : String :=
  s!"res_{id.index}"

end ResourceId

/-- Identity of a node within one network. -/
structure NodeId where
  index : Nat
  deriving DecidableEq, Repr, Inhabited

namespace NodeId

instance : Ord NodeId :=
  ⟨fun a b => compare a.index b.index⟩

/-- The text `node_3`. -/
def text (id : NodeId) : String :=
  s!"node_{id.index}"

/-- The text `NodeId(3)`, which stands for a node inside a listing. -/
def listingText (id : NodeId) : String :=
  s!"NodeId({id.index})"

/-- The id that follows, unless `id` is the largest one that can be written. -/
def next? (id : NodeId) : Option NodeId :=
  if id.index < maxWord then some ⟨id.index + 1⟩ else none

/-- Nodes in square brackets: `[NodeId(1), NodeId(2)]`. -/
def listing (nodes : List NodeId) : String :=
  "[" ++ ", ".intercalate (nodes.map listingText) ++ "]"

end NodeId

end ActivityNetwork
