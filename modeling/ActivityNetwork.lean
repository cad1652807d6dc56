import ActivityNetwork.Json.Policy
import ActivityNetwork.Proofs.Acceptance.Exploration
import ActivityNetwork.Proofs.Acceptance.Integrity
import ActivityNetwork.Proofs.Acceptance.Passage
import ActivityNetwork.Proofs.Acceptance.Sameness
import ActivityNetwork.Proofs.Draft.Absorption
import ActivityNetwork.Proofs.Draft.Accounting
import ActivityNetwork.Proofs.Draft.Chaining
import ActivityNetwork.Proofs.Draft.Cohesion
import ActivityNetwork.Proofs.Draft.Enclosing
import ActivityNetwork.Proofs.Draft.Gathering
import ActivityNetwork.Proofs.Draft.Identities
import ActivityNetwork.Proofs.Draft.Journal
import ActivityNetwork.Proofs.Draft.Merging
import ActivityNetwork.Proofs.Draft.Refusal
import ActivityNetwork.Proofs.Draft.Script
import ActivityNetwork.Proofs.Draft.Shape
import ActivityNetwork.Proofs.Draft.Simultaneity
import ActivityNetwork.Proofs.Json.Normalising
import ActivityNetwork.Proofs.Network.Export
import ActivityNetwork.Proofs.Network.Levels
import ActivityNetwork.Proofs.Network.Tables
