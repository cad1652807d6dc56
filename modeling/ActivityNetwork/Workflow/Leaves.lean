import ActivityNetwork.Ordered.Set
import ActivityNetwork.Workflow.Basic

/-!
# Leaves and parts of a workflow

Two walks through a workflow.  Both go from left to right, and both pass over a part whose id
they have met before, so that the work grows with the number of different parts and not with
the number of ways to reach them.
-/

namespace ActivityNetwork

/-- What a walk has met and what it has picked up. -/
structure Walk where
  met : OrderedSet WorkflowId
  found : List Workflow

namespace Walk

def start : Walk :=
  ⟨.empty, []⟩

/-- Goes on with `visit` unless `w` was met before. -/
def once (walk : Walk) (w : Workflow) (visit : Walk → Walk) : Walk :=
  if w.id ∈ walk.met then walk else visit { walk with met := walk.met.insert w.id }

/-- Picks up `w` behind what was picked up before. -/
def pick (walk : Walk) (w : Workflow) : Walk :=
  { walk with found := walk.found ++ [w] }

theorem once_of_met {walk : Walk} {w : Workflow} (visit : Walk → Walk) (h : w.id ∈ walk.met) :
    walk.once w visit = walk :=
  if_pos h

theorem once_of_not_met {walk : Walk} {w : Workflow} (visit : Walk → Walk)
    (h : w.id ∉ walk.met) :
    walk.once w visit = visit { walk with met := walk.met.insert w.id } :=
  if_neg h

end Walk

namespace Workflow

/-- A walk that picks up leaves.  A process that holds resources is seen through its
expansion. -/
def gatherLeaves : Workflow → Walk → Walk
  | w@(activity ..), walk => walk.once w (·.pick w)
  | w@(request ..), walk => walk.once w (·.pick w)
  | w@(release ..), walk => walk.once w (·.pick w)
  | w@(seq _ first second), walk =>
      walk.once w fun walk => second.gatherLeaves (first.gatherLeaves walk)
  | w@(overlap _ first second), walk =>
      walk.once w fun walk => second.gatherLeaves (first.gatherLeaves walk)
  | w@(holding _ _ _ expansion), walk => walk.once w expansion.gatherLeaves

/-- The leaves in the order in which they are first met. -/
def leaves (w : Workflow) : List Workflow :=
  (w.gatherLeaves .start).found

/-- The ids of the leaves, in the same order. -/
def leafIds (w : Workflow) : List WorkflowId :=
  w.leaves.map Workflow.id

/-- The names of the activities among the leaves, in the same order. -/
def activityNames (w : Workflow) : List String :=
  w.leaves.filterMap activityName?

/-- A walk that picks up every part, also the process behind an expansion. -/
def gatherParts : Workflow → Walk → Walk
  | w@(activity ..), walk => walk.once w (·.pick w)
  | w@(request ..), walk => walk.once w (·.pick w)
  | w@(release ..), walk => walk.once w (·.pick w)
  | w@(seq _ first second), walk =>
      walk.once w fun walk => second.gatherParts (first.gatherParts (walk.pick w))
  | w@(overlap _ first second), walk =>
      walk.once w fun walk => second.gatherParts (first.gatherParts (walk.pick w))
  | w@(holding _ process _ expansion), walk =>
      walk.once w fun walk => expansion.gatherParts (process.gatherParts (walk.pick w))

/-- The workflow itself and all its parts, by ascending id. -/
def parts (w : Workflow) : List Workflow :=
  (w.gatherParts .start).found.mergeSort fun a b => a.id.index ≤ b.id.index

end Workflow

end ActivityNetwork
