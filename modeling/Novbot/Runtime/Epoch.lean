import Mathlib.Algebra.Ring.Nat
import Mathlib.Logic.Function.Basic
import Mathlib.Order.Nat

/-!
# Deadlines of runs

The deadlines of the runs on one engine, from `run`, `with_epoch_ticks` and `invoke` of
`novbot-skill-runtime/src/host.rs`.  The engine has one epoch.  A run counts its deadline
in epochs from the one it finds, and starts a thread that counts the epoch up every ten
milliseconds until the run ends.  Every such thread counts the same epoch, so a run that
is alone has its time (`interrupted_in_time`) and two runs share theirs
(`interrupted_early`).

Times are numbers of nanoseconds.  The semaphore of runs is left out.
-/

namespace Novbot.Runtime.Epoch

def millisecond : Nat := 10 ^ 6

/-- `EPOCH_MILLIS`. -/
def epochMillis : Nat := 10

/-- `OPEN_DEADLINE_TICKS`. -/
def openDeadlineTicks : Nat := 2 ^ 62

/-- The timeout is a `u64` of milliseconds, so the ticks are one too. -/
def deadlineTicks : Option UInt64 → Nat
  | none => openDeadlineTicks
  | some timeout => max ((max timeout.toNat 1 + (epochMillis - 1)) / epochMillis) 1

/-- The thread of `with_epoch_ticks`. -/
inductive Ticker where
  /-- About to read the flag. -/
  | checking
  | sleeping (since : Nat)
  deriving DecidableEq, Repr

structure Run where
  /-- When `run` was entered. -/
  start : Nat
  timeout : UInt64
  /-- Nothing when there is no thread, or no more. -/
  ticker : Option Ticker
  /-- The epoch of the deadline, once it is set. -/
  deadline : Option Nat
  /-- The flag: the body of the run has ended. -/
  stop : Bool
  /-- When the guest was interrupted. -/
  interrupted : Option Nat
  deriving DecidableEq, Repr

structure State where
  now : Nat
  epoch : Nat
  /-- The runs that have not returned. -/
  runs : Nat → Option Run

/-- An engine on which nothing ran. -/
def State.new : State := ⟨0, 0, fun _ => none⟩

def State.set (state : State) (id : Nat) (run : Run) : State :=
  { state with runs := Function.update state.runs id (some run) }

inductive Event where
  | elapse (duration : Nat)
  /-- A run is entered.  Its thread may fail to start. -/
  | enter (id : Nat) (timeout : UInt64) (spawned : Bool)
  /-- `set_epoch_deadline`. -/
  | arm (id : Nat)
  /-- The thread reads the flag, maybe before a store to it is seen. -/
  | check (id : Nat) (seen : Bool)
  /-- The thread wakes up and counts the epoch up.  A sleep may take longer. -/
  | tick (id : Nat)
  /-- The guest reaches a check of the epoch after its deadline. -/
  | interrupt (id : Nat)
  /-- The body ends in another way. -/
  | finish (id : Nat)
  /-- The thread is joined, and `run` returns. -/
  | leave (id : Nat)
  deriving DecidableEq, Repr

def State.step (state : State) : Event → Option State
  | .elapse duration => some { state with now := state.now + duration }
  | .enter id timeout spawned =>
    if (state.runs id).isSome then none
    else
      some (state.set id ⟨state.now, timeout, if spawned then some .checking else none, none, false,
        none⟩)
  | .arm id =>
    match state.runs id with
    | some run =>
      if run.deadline.isSome || run.stop then none
      else some (state.set id { run with
        deadline := some (state.epoch + deadlineTicks (some run.timeout)) })
    | none => none
  | .check id seen =>
    match state.runs id with
    | some run =>
      if run.ticker ≠ some .checking || (seen && !run.stop) then none
      else some (state.set id { run with
        ticker := if seen then none else some (.sleeping state.now) })
    | none => none
  | .tick id =>
    match state.runs id with
    | some run =>
      match run.ticker with
      | some (.sleeping since) =>
        if since + epochMillis * millisecond ≤ state.now then
          some { state.set id { run with ticker := some .checking } with epoch := state.epoch + 1 }
        else none
      | _ => none
    | none => none
  | .interrupt id =>
    match state.runs id with
    | some run =>
      if !run.stop && run.deadline.any (· ≤ state.epoch) then
        some (state.set id { run with stop := true, interrupted := some state.now })
      else none
    | none => none
  | .finish id =>
    match state.runs id with
    | some run => if run.stop then none else some (state.set id { run with stop := true })
    | none => none
  | .leave id =>
    match state.runs id with
    | some run =>
      if run.stop && run.ticker.isNone then
        some { state with runs := Function.update state.runs id none }
      else none
    | none => none

/-- Reachable by steps that meet a condition. -/
inductive Reaches (ok : State → Event → Prop) : State → Prop where
  | new : Reaches ok .new
  | step {state state' : State} {event : Event} :
    Reaches ok state → ok state event → state.step event = some state' → Reaches ok state'

def State.run (state : State) : List Event → Option State
  | [] => some state
  | event :: events => (state.step event).bind fun state' => state'.run events

/-- The steps of a run of events meet a condition. -/
def State.Meets (ok : State → Event → Prop) (state : State) : List Event → Prop
  | [] => True
  | event :: events => ok state event ∧ ∀ state', state.step event = some state' →
      state'.Meets ok events

theorem Reaches.run {ok : State → Event → Prop} {state state' : State} {events : List Event}
    (h : Reaches ok state) (hok : state.Meets ok events) (hrun : state.run events = some state') :
    Reaches ok state' := by
  induction events generalizing state with
  | nil =>
    cases hrun
    exact h
  | cons event events ih =>
    obtain ⟨mid, hstep, hrest⟩ := Option.bind_eq_some_iff.mp hrun
    exact ih (h.step hok.1 hstep) (hok.2 mid hstep) hrest

/-- The body of the run goes on, under a deadline. -/
def Run.armed (run : Run) : Bool := run.deadline.isSome && !run.stop

/-- The epoch is counted up while no other run is under a deadline. -/
def Alone (state : State) : Event → Prop
  | .tick id => ∀ other run, state.runs other = some run → run.armed = true → other = id
  | _ => True

/-- No run was interrupted before its timeout. -/
def InTime (state : State) : Prop :=
  ∀ id run time, state.runs id = some run → run.interrupted = some time →
    run.start + run.timeout.toNat * millisecond ≤ time

/-! ## The clock of a run that is alone -/

theorem timeout_le_ticks (timeout : UInt64) :
    timeout.toNat ≤ deadlineTicks (some timeout) * epochMillis := by
  show timeout.toNat ≤ max ((max timeout.toNat 1 + (10 - 1)) / 10) 1 * 10
  omega

/-- The ticks since the deadline was set, 0 before. -/
def Run.ticks (run : Run) (epoch : Nat) : Nat :=
  match run.deadline with
  | some deadline => epoch + deadlineTicks (some run.timeout) - deadline
  | none => 0

/-- Since when the thread sleeps, or now. -/
def Run.awake (run : Run) (now : Nat) : Nat :=
  match run.ticker with
  | some (.sleeping since) => since
  | _ => now

/-- The thread of a run made all the ticks that the run sees. -/
structure Run.Timed (run : Run) (now epoch : Nat) : Prop where
  deadline : ∀ deadline, run.deadline = some deadline →
    deadline ≤ epoch + deadlineTicks (some run.timeout)
  awake : run.awake now ≤ now
  ticks : run.start + run.ticks epoch * (epochMillis * millisecond) ≤ run.awake now

/-- The invariant of a run. -/
structure Run.Fair (run : Run) (now epoch : Nat) : Prop where
  /-- As long as its body goes on. -/
  timed : run.stop = false → run.Timed now epoch
  inTime : ∀ time, run.interrupted = some time →
    run.start + run.timeout.toNat * millisecond ≤ time

def State.Fair (state : State) : Prop :=
  ∀ id run, state.runs id = some run → run.Fair state.now state.epoch

/-- One run changes. -/
theorem fair_update {now epoch : Nat} {runs : Nat → Option Run} {id : Nat} {changed : Option Run}
    (hchanged : ∀ run, changed = some run → run.Fair now epoch)
    (hothers : ∀ other run, other ≠ id → runs other = some run → run.Fair now epoch) :
    State.Fair ⟨now, epoch, Function.update runs id changed⟩ := by
  intro other run hrun
  by_cases hother : other = id
  · subst hother
    simp only [Function.update_self] at hrun
    exact hchanged run hrun
  · simp only [Function.update_of_ne hother] at hrun
    exact hothers other run hother hrun

theorem State.Fair.set {state : State} (h : state.Fair) {id : Nat} {run : Run}
    (hrun : run.Fair state.now state.epoch) : (state.set id run).Fair := by
  refine fair_update (fun found hfound => ?_) fun other found _ => h other found
  cases hfound
  exact hrun

theorem Run.Fair.elapse {run : Run} {now epoch : Nat} (h : run.Fair now epoch) (duration : Nat) :
    run.Fair (now + duration) epoch := by
  refine ⟨fun hstop => ?_, h.inTime⟩
  obtain ⟨hdeadline, hawake, hticks⟩ := h.timed hstop
  have hlater : run.awake now ≤ run.awake (now + duration) ∧
      run.awake (now + duration) ≤ now + duration := by
    unfold Run.awake at hawake ⊢
    split
    · next since hsleep =>
      rw [hsleep] at hawake
      exact ⟨Nat.le_refl _, Nat.le_trans hawake (Nat.le_add_right _ _)⟩
    · exact ⟨Nat.le_add_right _ _, Nat.le_refl _⟩
  exact ⟨hdeadline, hlater.2, Nat.le_trans hticks hlater.1⟩

/-- The thread of the run wakes up. -/
theorem Run.Fair.tick {run : Run} {now epoch since : Nat} (h : run.Fair now epoch)
    (hsleep : run.ticker = some (.sleeping since))
    (hslept : since + epochMillis * millisecond ≤ now) :
    Run.Fair { run with ticker := some .checking } now (epoch + 1) := by
  refine ⟨fun hstop => ?_, h.inTime⟩
  obtain ⟨hdeadline, -, hticks⟩ := h.timed hstop
  refine ⟨fun deadline hset => ?_, Nat.le_refl _, ?_⟩
  · have hle := hdeadline deadline hset
    show deadline ≤ epoch + 1 + deadlineTicks (some run.timeout)
    omega
  · have hawake : run.awake now = since := by
      unfold Run.awake
      rw [hsleep]
    rw [hawake] at hticks
    have hone : run.ticks (epoch + 1) ≤ run.ticks epoch + 1 := by
      unfold Run.ticks
      split
      · omega
      · omega
    have hmul := Nat.mul_le_mul_right (epochMillis * millisecond) hone
    rw [Nat.add_mul] at hmul
    show run.start + run.ticks (epoch + 1) * (epochMillis * millisecond) ≤ now
    omega

/-- Another thread wakes up while the run has no deadline. -/
theorem Run.Fair.other_tick {run : Run} {now epoch : Nat} (h : run.Fair now epoch)
    (hidle : run.armed = false) : run.Fair now (epoch + 1) := by
  refine ⟨fun hstop => ?_, h.inTime⟩
  obtain ⟨-, hawake, hticks⟩ := h.timed hstop
  have hnone : run.deadline = none := by
    unfold Run.armed at hidle
    rw [hstop] at hidle
    simpa using hidle
  have hzero : ∀ epoch, run.ticks epoch = 0 := by
    intro epoch
    unfold Run.ticks
    rw [hnone]
  refine ⟨fun deadline hset => ?_, hawake, ?_⟩
  · rw [hnone] at hset
    cases hset
  · rw [hzero] at hticks ⊢
    exact hticks

/-- A deadline that has passed has taken the timeout. -/
theorem Run.Timed.elapsed {run : Run} {now epoch deadline : Nat} (h : run.Timed now epoch)
    (hset : run.deadline = some deadline) (hpassed : deadline ≤ epoch) :
    run.start + run.timeout.toNat * millisecond ≤ now := by
  have hall : deadlineTicks (some run.timeout) ≤ run.ticks epoch := by
    unfold Run.ticks
    rw [hset]
    dsimp only
    omega
  calc run.start + run.timeout.toNat * millisecond
      ≤ run.start + deadlineTicks (some run.timeout) * epochMillis * millisecond :=
        Nat.add_le_add_left (Nat.mul_le_mul_right _ (timeout_le_ticks _)) _
    _ = run.start + deadlineTicks (some run.timeout) * (epochMillis * millisecond) := by
        rw [Nat.mul_assoc]
    _ ≤ run.start + run.ticks epoch * (epochMillis * millisecond) :=
        Nat.add_le_add_left (Nat.mul_le_mul_right _ hall) _
    _ ≤ run.awake now := h.ticks
    _ ≤ now := h.awake

theorem State.Fair.step {state state' : State} {event : Event} (h : state.Fair)
    (halone : Alone state event) (hstep : state.step event = some state') : state'.Fair := by
  cases event with
  | elapse duration =>
    cases hstep
    exact fun id run hrun => (h id run hrun).elapse duration
  | enter id timeout spawned =>
    simp only [State.step] at hstep
    split at hstep
    · cases hstep
    · cases hstep
      refine h.set ⟨fun _ => ⟨fun _ hset => ?_, ?_, ?_⟩, fun _ htime => ?_⟩
      · cases hset
      · cases spawned <;> exact Nat.le_refl _
      · cases spawned <;> simp [Run.ticks, Run.awake]
      · cases htime
  | arm id =>
    simp only [State.step] at hstep
    split at hstep
    · next run hrun =>
      split at hstep
      · cases hstep
      · next hopen =>
        cases hstep
        simp only [Bool.or_eq_true, not_or, Bool.not_eq_true, Option.isSome_eq_false_iff,
          Option.isNone_iff_eq_none] at hopen
        obtain ⟨-, hawake, hticks⟩ := (h id run hrun).timed hopen.2
        refine h.set ⟨fun _ => ⟨fun deadline hset => ?_, hawake, ?_⟩, (h id run hrun).inTime⟩
        · cases hset
          exact Nat.le_refl _
        · have hnone : run.ticks state.epoch = 0 := by
            unfold Run.ticks
            rw [hopen.1]
          have hzero : Run.ticks { run with
              deadline := some (state.epoch + deadlineTicks (some run.timeout)) } state.epoch = 0 :=
            Nat.sub_self _
          rw [hnone] at hticks
          rw [hzero]
          exact hticks
    · cases hstep
  | check id seen =>
    simp only [State.step] at hstep
    split at hstep
    · next run hrun =>
      split at hstep
      · cases hstep
      · next hchecking =>
        cases hstep
        simp only [ne_eq, decide_not, Bool.or_eq_true, Bool.not_eq_true', decide_eq_false_iff_not,
          not_or, not_not] at hchecking
        refine h.set ⟨fun hstop => ?_, (h id run hrun).inTime⟩
        obtain ⟨hdeadline, -, hticks⟩ := (h id run hrun).timed hstop
        have hnow : run.awake state.now = state.now := by
          unfold Run.awake
          rw [hchecking.1]
        rw [hnow] at hticks
        refine ⟨hdeadline, ?_, ?_⟩
        · cases seen <;> exact Nat.le_refl _
        · cases seen <;> exact hticks
    · cases hstep
  | tick id =>
    simp only [State.step] at hstep
    split at hstep
    · next run hrun =>
      split at hstep
      · next since hsleep =>
        split at hstep
        · next hslept =>
          cases hstep
          refine fair_update (fun found hfound => ?_) fun other found hother hfound => ?_
          · cases hfound
            exact (h id run hrun).tick hsleep hslept
          · refine (h other found hfound).other_tick (Bool.eq_false_iff.mpr fun harmed => ?_)
            exact hother (halone other found hfound harmed)
        · cases hstep
      · cases hstep
    · cases hstep
  | interrupt id =>
    simp only [State.step] at hstep
    split at hstep
    · next run hrun =>
      split at hstep
      · next hpassed =>
        cases hstep
        rw [Bool.and_eq_true, Bool.not_eq_true', Option.any_eq_true] at hpassed
        obtain ⟨hstop, deadline, hset, hle⟩ := hpassed
        refine h.set ⟨fun hnot => ?_, fun time htime => ?_⟩
        · cases hnot
        · cases htime
          exact ((h id run hrun).timed hstop).elapsed hset (of_decide_eq_true hle)
      · cases hstep
    · cases hstep
  | finish id =>
    simp only [State.step] at hstep
    split at hstep
    · next run hrun =>
      split at hstep
      · cases hstep
      · cases hstep
        refine h.set ⟨fun hnot => ?_, (h id run hrun).inTime⟩
        cases hnot
    · cases hstep
  | leave id =>
    simp only [State.step] at hstep
    split at hstep
    · split at hstep
      · cases hstep
        refine fair_update (fun found hfound => ?_) fun other found _ => h other found
        cases hfound
      · cases hstep
    · cases hstep

theorem Reaches.fair {state : State} (h : Reaches Alone state) : state.Fair := by
  induction h with
  | new => exact fun id run hrun => by cases hrun
  | step _ halone hstep ih => exact ih.step halone hstep

/-! ## Interruptions -/

/-- A run under a deadline that no other run counts for is not interrupted before its timeout. -/
theorem interrupted_in_time {state : State} (h : Reaches Alone state) : InTime state :=
  fun id run time hrun htime => (h.fair id run hrun).inTime time htime

/-- The run that an event is about. -/
def Event.about : Event → Option Nat
  | .elapse _ => none
  | .enter id _ _ | .arm id | .check id _ | .tick id | .interrupt id | .finish id | .leave id => some id

theorem step_others {state state' : State} {event : Event} (h : state.step event = some state')
    {other : Nat} (hother : event.about ≠ some other) : state'.runs other = state.runs other := by
  have hset : ∀ {id : Nat} {found : Option Run}, event.about = some id →
      Function.update state.runs id found other = state.runs other := by
    intro id found habout
    refine Function.update_of_ne (fun heq => hother ?_) _ _
    rw [habout, heq]
  cases event with
  | elapse duration =>
    cases h
    rfl
  | enter id timeout spawned =>
    simp only [State.step] at h
    split at h
    · cases h
    · cases h
      exact hset rfl
  | tick id =>
    simp only [State.step] at h
    split at h
    · split at h
      · split at h
        · cases h
          exact hset rfl
        · cases h
      · cases h
    · cases h
  | arm id | check id seen | interrupt id | finish id | leave id =>
    simp only [State.step] at h
    split at h
    · split at h
      · cases h <;> exact hset rfl
      · cases h <;> exact hset rfl
    · cases h

/-- Nothing shortens the time of a run that is alone on its engine. -/
theorem meets_alone {id : Nat} {events : List Event}
    (hevents : ∀ event ∈ events, event.about = none ∨ event.about = some id) {state : State}
    (hothers : ∀ other, other ≠ id → state.runs other = none) : state.Meets Alone events := by
  induction events generalizing state with
  | nil => trivial
  | cons event events ih =>
    obtain ⟨hevent, hevents⟩ := List.forall_mem_cons.mp hevents
    refine ⟨?_, fun state' hstep => ih hevents fun other hother => ?_⟩
    · cases event with
      | tick id' =>
        intro other run hrun _
        cases hevent with
        | inl hnone => cases hnone
        | inr hid =>
          cases hid
          by_contra hother
          rw [hothers other hother] at hrun
          cases hrun
      | _ => trivial
    · rw [step_others hstep, hothers other hother]
      intro habout
      rcases hevent with hnone | hid
      · rw [hnone] at habout
        cases habout
      · rw [hid] at habout
        exact hother (Option.some.inj habout).symm

/-- A run with 20 milliseconds, up to its interruption. -/
def aloneEvents : List Event :=
  [.enter 0 20 true, .arm 0, .check 0 false, .elapse (10 ^ 7), .tick 0, .check 0 false,
    .elapse (10 ^ 7), .tick 0, .interrupt 0]

theorem interrupted_in_time_alone : InTime ((State.new.run aloneEvents).getD .new) :=
  interrupted_in_time (@Reaches.run Alone .new _ aloneEvents .new
    (@meets_alone 0 aloneEvents (by decide) .new fun _ _ => rfl) rfl)

/-- Two runs that start together, each with 20 milliseconds.  Both threads count the epoch up
after ten of them. -/
def sharedEvents : List Event :=
  [.enter 0 20 true, .enter 1 20 true, .arm 0, .arm 1, .check 0 false, .check 1 false,
    .elapse (10 ^ 7), .tick 0, .tick 1, .interrupt 0]

theorem interrupted_early :
    ∃ state, Reaches (fun _ _ => True) state ∧ ¬ InTime state := by
  have hmeets : ∀ (events : List Event) (state : State), state.Meets (fun _ _ => True) events := by
    intro events
    induction events with
    | nil => exact fun _ => trivial
    | cons event events ih => exact fun _ => ⟨trivial, fun state' _ => ih state'⟩
  refine ⟨(State.new.run sharedEvents).getD .new, Reaches.run .new (hmeets sharedEvents _) rfl, ?_⟩
  intro hin
  have hearly := hin 0 ⟨0, 20, some .checking, some 2, true, some (10 ^ 7)⟩ (10 ^ 7) rfl rfl
  exact absurd hearly (by decide)

end Novbot.Runtime.Epoch
