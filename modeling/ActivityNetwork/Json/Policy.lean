import ActivityNetwork.Acceptance.Policy
import ActivityNetwork.Json.Basic

/-!
# The JSON form of policies

A policy is a record whose members may be left out; what is left out is not asked for.
-/

namespace ActivityNetwork

namespace Policy

def toJson (p : Policy) : Json :=
  .object
    [("require_single_entry", .bool p.singleEntry),
      ("require_single_exit", .bool p.singleExit),
      ("require_connected", .bool p.connected),
      ("max_nodes", .nat p.maxNodes)]

/-- Reads a setting, which has the value `default` if it is left out. -/
def setting? {α : Type} (read : Json → Option α) (default : α) : Option Json → Option α
  | none => some default
  | some j => read j

def ofJson? (j : Json) : Option Policy :=
  match j.settings?
    ["require_single_entry", "require_single_exit", "require_connected", "max_nodes"] with
  | some [singleEntry, singleExit, connected, maxNodes] => do
      return {
        singleEntry := ← setting? Json.bool? lenient.singleEntry singleEntry
        singleExit := ← setting? Json.bool? lenient.singleExit singleExit
        connected := ← setting? Json.bool? lenient.connected connected
        maxNodes := ← setting? Json.word? lenient.maxNodes maxNodes }
  | _ => none

end Policy

end ActivityNetwork
