import Mathlib.Data.List.Basic
import Mathlib.Data.List.Infix

/-!
# The limit on runs

`try_acquire_run`, `run_hub`, `reconcile` and `resize_runs` of `skills/mod.rs`, as far as they limit
how many skills run at a time.  A run takes a permit of the semaphore that it looked up and holds
it until it returns.  A policy with another limit puts a fresh semaphore in the place of the one
before, of which runs may still hold permits: the fresh one does not count them
(`resize_during_runs`).  `runs_bounded` says what holds where no run starts beside permits of an
older semaphore.
-/

namespace Novbot.Skills.Limiter

def defaultConcurrency : Nat := 4

/-- `SkillPolicy::from_proto`, the limit on runs of a policy that may be missing. -/
def maxConcurrentRuns : Option Int → Nat
  | none => defaultConcurrency
  | some value => if value ≤ 0 then defaultConcurrency else value.toNat

/-- How far the reconcile that holds the lock is. -/
inductive Phase where
  | idle
  /-- The policy is written. -/
  | noted (generation : Int) (permits : Nat)
  /-- `run_limit` had another value. -/
  | swapped (generation : Int) (permits : Nat)
  | resized (generation : Int)
  deriving DecidableEq, Repr

/-- A semaphore is known by its place in `semaphores`, which has the permits that it was made with. -/
structure Host where
  generation : Int
  bootFailures : Bool
  policy : Nat
  runLimit : Nat
  semaphores : List Nat
  /-- The semaphore in `runs`. -/
  runs : Nat
  phase : Phase
  /-- The calls so far. -/
  calls : Nat
  /-- Calls with the semaphore that they looked up. -/
  looking : List (Nat × Nat)
  /-- Runs with the semaphore that they hold a permit of, the newest first. -/
  executing : List (Nat × Nat)
  deriving DecidableEq, Repr

/-- `SkillHost::open`. -/
def openHost (generation : Int) (bootFailures : Bool) : Host where
  generation := generation
  bootFailures := bootFailures
  policy := defaultConcurrency
  runLimit := defaultConcurrency
  semaphores := [defaultConcurrency]
  runs := 0
  phase := .idle
  calls := 0
  looking := []
  executing := []

def Host.size (host : Host) (semaphore : Nat) : Nat := (host.semaphores[semaphore]?).getD 0

/-- The permits that no run holds. -/
def Host.available (host : Host) (semaphore : Nat) : Nat :=
  host.size semaphore - host.executing.countP fun run => run.2 = semaphore

def Host.isNoop (host : Host) (generation : Int) : Bool :=
  generation < host.generation || (generation = host.generation && !host.bootFailures)

inductive Action where
  /-- A call of `run_hub` has passed its checks, and clones the semaphore. -/
  | look
  /-- `try_acquire_owned` of a call. -/
  | acquire (call : Nat)
  /-- A run has returned. -/
  | release (call : Nat)
  /-- A reconcile takes the lock and writes the policy. -/
  | reconcile (generation : Int) (policy : Option Int)
  /-- `resize_runs` swaps `run_limit`. -/
  | swap
  /-- `resize_runs` puts a semaphore in place. -/
  | replace
  /-- The reconcile ends. -/
  | finish
  deriving DecidableEq, Repr

def step (host : Host) : Action → Option Host
  | .look => some { host with
      calls := host.calls + 1
      looking := (host.calls, host.runs) :: host.looking }
  | .acquire call =>
    match host.looking.lookup call with
    | none => none
    | some semaphore =>
      -- without a permit the call ends with `max_concurrent_runs is busy`
      some { host with
        looking := host.looking.filter (·.1 ≠ call)
        executing := if host.available semaphore = 0 then host.executing
          else (call, semaphore) :: host.executing }
  | .release call => some { host with executing := host.executing.filter (·.1 ≠ call) }
  | .reconcile generation policy =>
    if host.phase ≠ .idle then none
    else if host.isNoop generation then some host
    else some { host with
      policy := maxConcurrentRuns policy
      phase := .noted generation (maxConcurrentRuns policy) }
  | .swap =>
    match host.phase with
    | .noted generation permits =>
      some { host with
        runLimit := max permits 1
        phase := if host.runLimit = max permits 1 then .resized generation
          else .swapped generation (max permits 1) }
    | _ => none
  | .replace =>
    match host.phase with
    | .swapped generation permits =>
      some { host with
        semaphores := host.semaphores ++ [permits]
        runs := host.semaphores.length
        phase := .resized generation }
    | _ => none
  | .finish =>
    match host.phase with
    | .resized generation =>
      some { host with generation := generation, bootFailures := false, phase := .idle }
    | _ => none

/-- The host after actions that can all take place. -/
def after (init : Host) (actions : List Action) : Option Host :=
  actions.foldl (fun host action => host.bind (step · action)) (some init)

theorem after_concat (init : Host) (actions : List Action) (action : Action) :
    after init (actions ++ [action]) = (after init actions).bind (step · action) := by
  rw [after, List.foldl_append]
  rfl

/-- The bound on the runs, at every point of the actions.  A point since the oldest run started is
one at which that run executes. -/
structure Bounded (init : Host) (actions : List Action) : Prop where
  largest : ∀ now host oldest, now <+: actions → after init now = some host →
    host.executing.getLast? = some oldest →
    ∃ earlier before, earlier <+: now ∧ after init earlier = some before ∧
      oldest ∈ before.executing ∧ host.executing.length ≤ before.policy
  starts : ∀ now call host host', now ++ [.acquire call] <+: actions → after init now = some host →
    step host (.acquire call) = some host' → host.executing.length < host'.executing.length →
    host.executing.length < host.policy

/-- A run that starts now takes a permit of the semaphore in place, which was made for the policy in
force, and no run holds a permit of another one. -/
def Settled (host : Host) : Action → Prop
  | .acquire call => ∀ semaphore ∈ host.looking.lookup call, host.available semaphore ≠ 0 →
      semaphore = host.runs ∧ host.size host.runs = host.policy ∧
        ∀ run ∈ host.executing, run.2 = host.runs
  | _ => True

instance (host : Host) : DecidablePred (Settled host)
  | .acquire call => inferInstanceAs (Decidable (∀ semaphore ∈ host.looking.lookup call,
      host.available semaphore ≠ 0 → semaphore = host.runs ∧ host.size host.runs = host.policy ∧
        ∀ run ∈ host.executing, run.2 = host.runs))
  | .look | .release _ | .reconcile _ _ | .swap | .replace | .finish =>
    inferInstanceAs (Decidable True)

section
variable {init host host' : Host} {actions : List Action}

/-- What a step does to the runs: one more, with a permit, or some fewer. -/
theorem step_executing {action : Action} (h : step host action = some host') :
    (∃ call semaphore, action = .acquire call ∧ host.looking.lookup call = some semaphore ∧
      host.available semaphore ≠ 0 ∧ host'.policy = host.policy ∧
      host'.executing = (call, semaphore) :: host.executing) ∨
    ∃ keep : Nat × Nat → Bool, host'.executing = host.executing.filter keep := by
  have hsame : ∀ runs : List (Nat × Nat), runs = runs.filter fun _ => true :=
    fun runs => (List.filter_eq_self.mpr fun _ _ => rfl).symm
  cases action with
  | look =>
    cases h
    exact .inr ⟨_, hsame _⟩
  | acquire call =>
    rw [step] at h
    split at h
    · cases h
    · next semaphore hlook =>
      cases h
      dsimp only
      split
      · exact .inr ⟨_, hsame _⟩
      · next hfree => exact .inl ⟨call, semaphore, rfl, hlook, hfree, rfl, rfl⟩
  | release call =>
    cases h
    exact .inr ⟨_, rfl⟩
  | reconcile generation policy =>
    rw [step] at h
    split at h
    · cases h
    · split at h
      · cases h
        exact .inr ⟨_, hsame _⟩
      · cases h
        exact .inr ⟨_, hsame _⟩
  | swap =>
    rw [step] at h
    split at h
    · cases h
      exact .inr ⟨_, hsame _⟩
    · cases h
  | replace =>
    rw [step] at h
    split at h
    · cases h
      exact .inr ⟨_, hsame _⟩
    · cases h
  | finish =>
    rw [step] at h
    split at h
    · cases h
      exact .inr ⟨_, hsame _⟩
    · cases h

/-- Where every permit is of the semaphore in place, its permits are the limit. -/
theorem length_lt_policy {call semaphore : Nat} (hsettled : Settled host (.acquire call))
    (hlook : host.looking.lookup call = some semaphore) (hfree : host.available semaphore ≠ 0) :
    host.executing.length < host.policy := by
  obtain ⟨rfl, hsize, hall⟩ := hsettled semaphore hlook hfree
  have hcount : (host.executing.countP fun run => run.2 = host.runs) = host.executing.length :=
    List.countP_eq_length.mpr fun run hrun => decide_eq_true (hall run hrun)
  rw [Host.available, hsize, hcount] at hfree
  omega

/-- The runs from any of them on to the oldest were all there at a point where the policy allowed
as many. -/
def Allowed (init : Host) (now : List Action) (host : Host) : Prop :=
  ∀ older, older <:+ host.executing → ∃ earlier before, earlier <+: now ∧
    after init earlier = some before ∧ older.Sublist before.executing ∧
    before.executing.length ≤ before.policy

theorem Allowed.step {now : List Action} {action : Action} (h : Allowed init now host)
    (hnow : after init now = some host) (hsettled : Settled host action)
    (hstep : step host action = some host') : Allowed init (now ++ [action]) host' := by
  have hextend : ∀ older, older <:+ host.executing → ∃ earlier before,
      earlier <+: now ++ [action] ∧ after init earlier = some before ∧
      older.Sublist before.executing ∧ before.executing.length ≤ before.policy := by
    intro older holder
    obtain ⟨earlier, before, hearlier, hbefore, hrest⟩ := h older holder
    exact ⟨earlier, before, hearlier.trans (List.prefix_append _ _), hbefore, hrest⟩
  rcases step_executing hstep with ⟨call, semaphore, rfl, hlook, hfree, hpolicy, hexecuting⟩ |
    ⟨keep, hexecuting⟩
  · intro older holder
    rw [hexecuting] at holder
    rcases List.suffix_cons_iff.mp holder with rfl | holder
    · refine ⟨now ++ [.acquire call], host', List.prefix_refl _, ?_, ?_, ?_⟩
      · rw [after_concat, hnow]
        exact hstep
      · rw [hexecuting]
      · rw [hexecuting, hpolicy]
        exact length_lt_policy hsettled hlook hfree
    · exact hextend older holder
  · intro older holder
    rw [hexecuting] at holder
    obtain ⟨whole, hwhole, rfl⟩ := List.suffix_filter_iff.mp holder
    obtain ⟨earlier, before, hearlier, hbefore, hsub, hle⟩ := hextend whole hwhole
    exact ⟨earlier, before, hearlier, hbefore, List.filter_sublist.trans hsub, hle⟩

theorem allowed_after (hinit : init.executing = [])
    (hsettled : ∀ before action host, before ++ [action] <+: actions → after init before = some host →
      Settled host action) {now : List Action} (hstart : now <+: actions) :
    ∀ host, after init now = some host → Allowed init now host := by
  induction now using List.reverseRecOn with
  | nil =>
    intro host hhost older holder
    cases hhost
    rw [hinit] at holder
    cases List.suffix_nil.mp holder
    exact ⟨[], init, List.prefix_refl _, rfl, List.nil_sublist _, by rw [hinit]; exact Nat.zero_le _⟩
  | append_singleton now action ih =>
    intro host' hhost'
    rw [after_concat] at hhost'
    obtain ⟨host, hhost, hstep⟩ := Option.bind_eq_some_iff.mp hhost'
    have hbefore : now <+: actions := (List.prefix_append now [action]).trans hstart
    exact (ih hbefore host hhost).step hhost (hsettled now action host hstart hhost) hstep

end

/-- When runs only start beside permits of the semaphore that was made for the policy in force,
they stay within the largest limit since the oldest of them started, and none starts at the limit. -/
theorem runs_bounded (generation : Int) (bootFailures : Bool) (actions : List Action)
    (hsettled : ∀ before action host, before ++ [action] <+: actions →
      after (openHost generation bootFailures) before = some host → Settled host action) :
    Bounded (openHost generation bootFailures) actions := by
  constructor
  · intro now host oldest hnow hhost holdest
    obtain ⟨earlier, before, hearlier, hbefore, hsub, hle⟩ :=
      allowed_after rfl hsettled hnow host hhost _ (List.suffix_refl _)
    exact ⟨earlier, before, hearlier, hbefore, hsub.subset (List.mem_of_getLast? holdest),
      hsub.length_le.trans hle⟩
  · intro now call host host' hnow hhost hstep hgrows
    have hhere := hsettled now (.acquire call) host hnow hhost
    rcases step_executing hstep with ⟨other, semaphore, hother, hlook, hfree, -, -⟩ | ⟨keep, hkeep⟩
    · cases hother
      exact length_lt_policy hhere hlook hfree
    · rw [hkeep] at hgrows
      exact absurd (List.length_filter_le keep _) (Nat.not_le.mpr hgrows)

/-- The steps of a list of actions, by their places. -/
theorem settled_of_take {init : Host} {actions : List Action}
    (h : ∀ k, (hk : k < actions.length) → ∀ host ∈ after init (actions.take k),
      Settled host actions[k]) :
    ∀ before action host, before ++ [action] <+: actions → after init before = some host →
      Settled host action := by
  rintro before action host ⟨rest, rfl⟩ hhost
  have hplace := h before.length (by simp) host (by simpa using hhost)
  simpa using hplace

/-- Two runs, a policy for one run after they have ended, and one more run. -/
def resizeAfterRuns : List Action :=
  [.look, .acquire 0, .look, .acquire 1, .release 0, .release 1, .reconcile 1 (some 1), .swap, .replace,
    .finish, .look, .acquire 2]

theorem resizeAfterRuns_bounded : Bounded (openHost 0 false) resizeAfterRuns :=
  runs_bounded 0 false resizeAfterRuns (settled_of_take (by decide))

/-- Four runs, a policy for one run while they execute, and one more run. -/
def resizeDuringRuns : List Action :=
  [.look, .look, .look, .look, .acquire 0, .acquire 1, .acquire 2, .acquire 3, .reconcile 1 (some 1), .swap,
    .replace, .finish, .look, .acquire 4]

/-- The fifth run starts where the policy allows one, and with it more execute than any policy has
allowed. -/
theorem resize_during_runs : ¬ Bounded (openHost 0 false) resizeDuringRuns ∧
    ((after (openHost 0 false) resizeDuringRuns).map (·.executing.length)) = some 5 ∧
    ∀ k ≤ resizeDuringRuns.length,
      ∀ host ∈ after (openHost 0 false) (resizeDuringRuns.take k), host.policy ≤ 4 := by
  refine ⟨fun h => ?_, by decide, by decide⟩
  have hstart := h.starts (resizeDuringRuns.take 13) 4 _ _ (List.prefix_refl _) rfl rfl (by decide)
  exact absurd hstart (by decide)

end Novbot.Skills.Limiter
