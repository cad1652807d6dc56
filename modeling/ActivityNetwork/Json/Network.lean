import ActivityNetwork.Json.Basic
import ActivityNetwork.Network.Basic

/-!
# The JSON form of networks

Nodes, edges and frontiers are lists in the order of insertion; a node is a pair of its id and
its kind.  Reading takes any list: a node that is listed again stays in its place and takes
the later kind, and edges and frontier nodes that are listed again are passed over.
-/

namespace ActivityNetwork

namespace Resource

def toJson (r : Resource) : Json :=
  .object [("id", .nat r.id.index), ("label", .text r.label)]

def ofJson? (j : Json) : Option Resource :=
  match j.record? ["id", "label"] with
  | some [id, label] => do
      return ⟨⟨← id.word?⟩, ← label.text?⟩
  | _ => none

theorem ofJson?_toJson {r : Resource} (h : r.id.index ≤ maxWord) : ofJson? r.toJson = some r := by
  simp [ofJson?, toJson, Json.record?, Json.member?, Json.word?_nat h, Json.text?]

end Resource

namespace NodeId

def toJson (id : NodeId) : Json :=
  .nat id.index

def ofJson? (j : Json) : Option NodeId :=
  j.word?.map NodeId.mk

/-- Reads a list of nodes. -/
def listOfJson? (j : Json) : Option (List NodeId) := do
  (← j.list?).mapM ofJson?

theorem ofJson?_toJson {id : NodeId} (h : id.index ≤ maxWord) : ofJson? id.toJson = some id := by
  simp [ofJson?, toJson, Json.word?_nat h]

end NodeId

namespace NodeKind

def toJson : NodeKind → Json
  | boundary => .text "Process"
  | request r => .object [("Request", .object [("resource", r.toJson)])]
  | release r => .object [("Release", .object [("resource", r.toJson)])]

def ofJson? (j : Json) : Option NodeKind :=
  match j.variant? with
  | some ("Process", .null) => some boundary
  | some ("Request", payload) => do
      return request (← Resource.ofJson? (← payload.member? "resource"))
  | some ("Release", payload) => do
      return release (← Resource.ofJson? (← payload.member? "resource"))
  | _ => none

theorem ofJson?_toJson {kind : NodeKind} (h : ∀ r, kind.resource? = some r → r.id.index ≤ maxWord) :
    ofJson? kind.toJson = some kind := by
  cases kind with
  | boundary => rfl
  | request r =>
      simp [ofJson?, toJson, Json.variant?, Json.member?, Resource.ofJson?_toJson (h r rfl)]
  | release r =>
      simp [ofJson?, toJson, Json.variant?, Json.member?, Resource.ofJson?_toJson (h r rfl)]

end NodeKind

namespace Duration

def toJson (d : Duration) : Json :=
  .nat d.toNat

def ofJson? (j : Json) : Option Duration :=
  j.word?.bind ofNat?

theorem ofJson?_toJson (d : Duration) : ofJson? d.toJson = some d := by
  simp [ofJson?, toJson, Json.word?_nat d.toNat_le, ofNat?_toNat]

end Duration

namespace EdgeKind

def toJson : EdgeKind → Json
  | activity name duration =>
      .object [("Process", .object [("name", .text name), ("duration", duration.toJson)])]
  | dependency => .text "Dependency"

def ofJson? (j : Json) : Option EdgeKind :=
  match j.variant? with
  | some ("Process", payload) => do
      return activity (← (← payload.member? "name").text?)
        (← Duration.ofJson? (← payload.member? "duration"))
  | some ("Dependency", .null) => some dependency
  | _ => none

theorem ofJson?_toJson (kind : EdgeKind) : ofJson? kind.toJson = some kind := by
  cases kind with
  | activity name duration =>
      simp [ofJson?, toJson, Json.variant?, Json.member?, Json.text?, Duration.ofJson?_toJson]
  | dependency => rfl

end EdgeKind

namespace Edge

def toJson (e : Edge) : Json :=
  .object [("from", e.source.toJson), ("to", e.target.toJson), ("kind", e.kind.toJson)]

def ofJson? (j : Json) : Option Edge :=
  match j.record? ["from", "to", "kind"] with
  | some [source, target, kind] => do
      return ⟨← NodeId.ofJson? source, ← NodeId.ofJson? target, ← EdgeKind.ofJson? kind⟩
  | _ => none

theorem ofJson?_toJson {e : Edge} (hsource : e.source.index ≤ maxWord)
    (htarget : e.target.index ≤ maxWord) : ofJson? e.toJson = some e := by
  simp [ofJson?, toJson, Json.record?, Json.member?, NodeId.ofJson?_toJson hsource,
    NodeId.ofJson?_toJson htarget, EdgeKind.ofJson?_toJson]

end Edge

namespace Network

/-- The pair of a node and its kind. -/
def nodeToJson (entry : NodeId × NodeKind) : Json :=
  .list [entry.1.toJson, entry.2.toJson]

def nodeOfJson? (j : Json) : Option (NodeId × NodeKind) :=
  match j with
  | .list [id, kind] => do
      return (← NodeId.ofJson? id, ← NodeKind.ofJson? kind)
  | _ => none

def toJson (g : Network) : Json :=
  .object
    [("nodes", .list (g.nodes.entries.map nodeToJson)),
      ("edges", .list (g.edges.toList.map Edge.toJson)),
      ("start", .list (g.entries.toList.map NodeId.toJson)),
      ("end", .list (g.exits.toList.map NodeId.toJson))]

def ofJson? (j : Json) : Option Network :=
  match j.record? ["nodes", "edges", "start", "end"] with
  | some [nodes, edges, entries, exits] => do
      return {
        nodes := .ofList (← (← nodes.list?).mapM nodeOfJson?)
        edges := .ofList (← (← edges.list?).mapM Edge.ofJson?)
        entries := .ofList (← NodeId.listOfJson? entries)
        exits := .ofList (← NodeId.listOfJson? exits) }
  | _ => none

end Network

end ActivityNetwork
