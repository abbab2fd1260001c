import Mathlib.Logic.Function.Basic
import Novbot.Control.Message
import Novbot.Lib.Text

/-!
# The hub

`novbot-center/src/hub.rs`: which session a node is reached through, the skill
ABI each node advertised, and the fetch tickets.  A sender is known by the
session whose push channel it feeds, so `same_channel` is equality of sessions.
-/

namespace Novbot.Control

abbrev SessionId := Nat

/-- The life of a fetch ticket: 15 minutes. -/
def ticketTtl : Nat := 15 * 60 * 1000

structure TicketRec where
  nodeId : NodeId
  sha256 : String
  expires : Nat
  deriving DecidableEq, Repr

structure Hub where
  inner : NodeId → Option SessionId
  abi : NodeId → Option String
  tickets : String → Option TicketRec

namespace Hub

def new : Hub := ⟨fun _ => none, fun _ => none, fun _ => none⟩

def register (hub : Hub) (nodeId : NodeId) (tx : SessionId) : Hub :=
  { hub with inner := Function.update hub.inner nodeId (some tx) }

/-- Removes the sender of this session only. -/
def unregister (hub : Hub) (nodeId : NodeId) (tx : SessionId) : Hub :=
  if hub.inner nodeId = some tx then { hub with inner := Function.update hub.inner nodeId none }
  else hub

/-- Drops whatever sender is registered. -/
def evict (hub : Hub) (nodeId : NodeId) : Hub :=
  { hub with inner := Function.update hub.inner nodeId none }

def isConnected (hub : Hub) (nodeId : NodeId) : Bool := (hub.inner nodeId).isSome

def noteAbi (hub : Hub) (nodeId : NodeId) (skillAbi : String) : Hub :=
  { hub with abi := Function.update hub.abi nodeId (some skillAbi) }

/-- `sha256.trim().to_ascii_lowercase()`. -/
def normalSha (sha256 : String) : String :=
  .ofList ((Text.trim sha256.toList).map Text.toAsciiLowercase)

/-- Drops expired tickets and adds one for the node and the package. -/
def issueTicket (hub : Hub) (ticket : String) (nodeId : NodeId) (sha256 : String) (now : Nat) :
    Hub :=
  let kept := fun t => (hub.tickets t).filter fun rec => now < rec.expires
  { hub with
    tickets := Function.update kept ticket (some ⟨nodeId, normalSha sha256, now + ticketTtl⟩) }

@[simp] theorem register_inner (hub : Hub) (nodeId : NodeId) (tx : SessionId) :
    (hub.register nodeId tx).inner = Function.update hub.inner nodeId (some tx) := rfl

@[simp] theorem evict_inner (hub : Hub) (nodeId : NodeId) :
    (hub.evict nodeId).inner = Function.update hub.inner nodeId none := rfl

/-- A sender that `unregister` leaves is not the session's own under that node. -/
theorem unregister_inner_some {hub : Hub} {nodeId n : NodeId} {tx s : SessionId} :
    (hub.unregister nodeId tx).inner n = some s ↔
      hub.inner n = some s ∧ ¬ (n = nodeId ∧ s = tx) := by
  unfold unregister
  by_cases h : hub.inner nodeId = some tx
  · by_cases hn : n = nodeId
    · subst hn
      simp [h, eq_comm]
    · simp [h, hn]
  · rw [if_neg h]
    refine ⟨fun hs => ⟨hs, fun ⟨hn, ht⟩ => h (by rw [← hn, ← ht, hs])⟩, fun hs => hs.1⟩

@[simp] theorem noteAbi_inner (hub : Hub) (nodeId : NodeId) (abi : String) :
    (hub.noteAbi nodeId abi).inner = hub.inner := rfl

@[simp] theorem issueTicket_inner (hub : Hub) (ticket : String) (nodeId : NodeId)
    (sha256 : String) (now : Nat) : (hub.issueTicket ticket nodeId sha256 now).inner = hub.inner :=
  rfl

end Hub

end Novbot.Control
