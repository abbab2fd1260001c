import Novbot.Runtime.Calls

/-!
# Refused calls of a run

`invoke` and `finish` of `novbot-skill-runtime/src/host.rs`.  A guest is a program over the
host calls, from the start functions of its instantiation on, and it may stop or trap at
any time.

`exec_recorded` says what any execution leaves in the context: the refusals of its calls, in
order, up to the limit.  `finish` reports them.  The other way out of `invoke`, where the
instantiation fails, reports none (`accounted_iff`).
-/

namespace Novbot.Runtime

open Concurrent Text

/-- An error of the engine that ends a guest. -/
structure Trap where
  message : String
  /-- The message with its causes. -/
  chain : String
  /-- `Trap::Interrupt`. -/
  interrupt : Bool
  deriving DecidableEq, Repr

/-- What the exported function does. -/
abbrev Exported := String → Program Reply (Except Trap (Except String String))

/-- A component: its instantiation, and then its function. -/
abbrev Guest := Program Reply (Except Trap Exported)

def trapCode (trap : Trap) : String :=
  let text := trap.chain.toList.map toAsciiLowercase
  if hasInfix "epoch".toList text || hasInfix "interrupt".toList text || trap.interrupt then
    "exec_timeout"
  else if hasInfix "memory".toList text || hasInfix "resource".toList text then "resource_limit"
  else "guest_trap"

def denialMessage (count : Nat) : String :=
  if count = 1 then "1 host call was outside the skill's declared capabilities"
  else toString count ++ " host calls were outside the skill's declared capabilities"

def RunOutput.succeeded (output : String) : RunOutput :=
  { status := "ok", error := none, denials := [], partialOutput := none, output := some output }

def finish (ctx : RunCtx) (result : Except Trap (Except String String)) : RunOutput :=
  if ctx.denials ≠ [] then
    .failed "capability_denied" (denialMessage ctx.denials.length) ctx.denials
      (match result with
      | .ok (.ok text) => some text
      | _ => none)
  else
    match result with
    | .ok (.ok output) => .succeeded output
    | .ok (.error message) => .failed "guest_error" message [] none
    | .error trap => .failed (trapCode trap) trap.message [] none

/-- The calls that were made, the last one perhaps with a trap. -/
abbrev Calls := List (Moment × Call)

structure Ended (β : Type) where
  result : Except Trap β
  ctx : RunCtx
  calls : Calls

section
variable {β : Type} (raise : String → Trap) (moments : Nat → Moment)

/-- Performs the calls of a program.  The error of a call ends the guest with the trap that
the engine makes of it. -/
def exec : Program Reply (Except Trap β) → Nat → RunCtx → Ended β
  | .done result, _, ctx => ⟨result, ctx, []⟩
  | .perform call next, n, ctx =>
    match ctx.perform (moments n) call with
    | (.error err, ctx) => ⟨.error (raise err), ctx, [(moments n, call)]⟩
    | (.ok reply, ctx) =>
      let ended := exec (next reply) (n + 1) ctx
      { ended with calls := (moments n, call) :: ended.calls }

/-- A run with the calls it made. -/
structure GuestRun where
  output : RunOutput
  /-- The guest did not return. -/
  trapped : Prop
  calls : Calls

def RunCtx.new (grants : GrantSet) (denylist : Denylist) : RunCtx := ⟨grants, denylist, [], []⟩

/-- `invoke`, once the linker is set up. -/
def invoke (guest : Guest) (grants : GrantSet) (denylist : Denylist) (paramsJson : String) :
    GuestRun :=
  let started := exec raise moments guest 0 (.new grants denylist)
  match started.result with
  | .error trap => ⟨.failed (trapCode trap) trap.message [] none, True, started.calls⟩
  | .ok exported =>
    let ended := exec raise moments (exported paramsJson) started.calls.length started.ctx
    ⟨finish ended.ctx ended.result, ∃ trap, ended.result = .error trap,
      started.calls ++ ended.calls⟩

end

/-! ## What an execution records -/

/-- The denials of the calls that are refused. -/
def refusals (grants : GrantSet) (denylist : Denylist) (calls : Calls) : List Denial :=
  calls.filterMap fun made => refusal grants denylist made.1 made.2

theorem refusals_cons (grants : GrantSet) (denylist : Denylist) (moment : Moment) (call : Call)
    (calls : Calls) :
    refusals grants denylist ((moment, call) :: calls) =
      (refusal grants denylist moment call).toList ++ refusals grants denylist calls := by
  rw [refusals, List.filterMap_cons]
  dsimp only
  cases refusal grants denylist moment call <;> rfl

theorem refusals_append (grants : GrantSet) (denylist : Denylist) (calls more : Calls) :
    refusals grants denylist (calls ++ more) =
      refusals grants denylist calls ++ refusals grants denylist more := List.filterMap_append

/-- An execution adds the refusals of its calls up to the limit, and a call at the limit
is its last one and traps. -/
structure Recorded {β : Type} (ctx : RunCtx) (ended : Ended β) : Prop where
  grants : ended.ctx.grants = ctx.grants
  denylist : ended.ctx.denylist = ctx.denylist
  denials : ended.ctx.denials =
    (ctx.denials ++ refusals ctx.grants ctx.denylist ended.calls).take denialLimit
  last : ∀ before moment call after, ended.calls = before ++ (moment, call) :: after →
    denialLimit ≤ (ctx.denials ++ refusals ctx.grants ctx.denylist before).length →
    after = [] ∧ ∃ trap, ended.result = .error trap

section
variable {β : Type} {raise : String → Trap} {moments : Nat → Moment}

theorem exec_recorded (program : Program Reply (Except Trap β)) (n : Nat) {ctx : RunCtx}
    (hlimit : ctx.denials.length ≤ denialLimit) :
    Recorded ctx (exec raise moments program n ctx) := by
  induction program generalizing n ctx with
  | done result =>
    refine ⟨rfl, rfl, ?_, ?_⟩
    · show ctx.denials = (ctx.denials ++ []).take denialLimit
      rw [List.append_nil, List.take_of_length_le hlimit]
    · intro before moment call after hcalls
      simp [exec] at hcalls
  | perform call next ih =>
    have hmade := performed ctx (moments n) call
    rw [exec]
    cases hperform : ctx.perform (moments n) call with
    | mk result ctx' =>
      rw [hperform] at hmade
      obtain ⟨hgrants, hdenylist, hat, hbelow⟩ := hmade
      have hroom : ctx.denials.length < denialLimit →
          ctx'.denials.length ≤ denialLimit := by
        intro hlt
        rw [hbelow hlt, List.length_append]
        have hone := Option.length_toList_le
          (o := refusal ctx.grants ctx.denylist (moments n) call)
        omega
      cases result with
      | error err =>
        refine ⟨hgrants, hdenylist, ?_, ?_⟩
        · show ctx'.denials = (ctx.denials ++ refusals _ _ [(moments n, call)]).take denialLimit
          rw [refusals_cons]
          by_cases hfull : denialLimit ≤ ctx.denials.length
          · rw [(hat hfull).2, List.take_append_of_le_length hfull, List.take_of_length_le hlimit]
          · have hlt := Nat.lt_of_not_le hfull
            have hsame := hbelow hlt
            have hlen := hroom hlt
            rw [hsame] at hlen
            rw [hsame]
            exact (List.take_of_length_le (by simpa [refusals] using hlen)).symm.trans
              (by simp [refusals])
        · intro before moment call after hcalls _
          cases before with
          | nil =>
            cases hcalls
            exact ⟨rfl, raise err, rfl⟩
          | cons first before => simp at hcalls
      | ok reply =>
        have hlt : ctx.denials.length < denialLimit := by
          by_contra hfull
          obtain ⟨⟨err, herr⟩, -⟩ := hat (Nat.le_of_not_lt hfull)
          cases herr
        have hrest := ih reply (n + 1) (hroom hlt)
        obtain ⟨hgrants', hdenylist', hdenials', hlast'⟩ := hrest
        rw [hgrants, hdenylist, hbelow hlt] at hdenials' hlast'
        refine ⟨hgrants'.trans hgrants, hdenylist'.trans hdenylist, ?_, ?_⟩
        · dsimp only
          rw [hdenials', refusals_cons, List.append_assoc]
        · intro before moment call after hcalls hfull
          cases before with
          | nil =>
            rw [refusals, List.filterMap_nil, List.append_nil] at hfull
            exact absurd hlt (Nat.not_lt_of_le hfull)
          | cons first before =>
            dsimp only at hcalls
            rw [List.cons_append] at hcalls
            obtain ⟨hfirst, htail⟩ := List.cons.inj hcalls
            subst hfirst
            refine hlast' before moment call after htail ?_
            rw [refusals_cons] at hfull
            rwa [List.append_assoc]

end

/-! ## What a run reports -/

/-- The output lists the refused calls in order up to the limit, no call is made after one
at the limit, and the output is `capability_denied` exactly when a call was refused. -/
def Accounted (grants : GrantSet) (denylist : Denylist) (run : GuestRun) : Prop :=
  run.output.denials = (refusals grants denylist run.calls).take denialLimit ∧
  run.output.denials.length ≤ denialLimit ∧
  (∀ before moment call after, run.calls = before ++ (moment, call) :: after →
    denialLimit ≤ (refusals grants denylist before).length → after = [] ∧ run.trapped) ∧
  ((run.output.status = "error" ∧
      ∃ message, run.output.error = some ⟨"capability_denied", message⟩) ↔
    refusals grants denylist run.calls ≠ [])

/-- The instantiation succeeds, or no call is refused in it. -/
def CleanStart (raise : String → Trap) (moments : Nat → Moment) (guest : Guest)
    (grants : GrantSet) (denylist : Denylist) : Prop :=
  ∀ trap, (exec raise moments guest 0 (.new grants denylist)).result = .error trap →
    refusals grants denylist (exec raise moments guest 0 (.new grants denylist)).calls = []

theorem trapCode_ne (trap : Trap) : trapCode trap ≠ "capability_denied" := by
  unfold trapCode
  dsimp only
  split
  · decide
  · split <;> decide

theorem take_limit_eq_nil {denials : List Denial} :
    denials.take denialLimit = [] ↔ denials = [] := by
  rw [List.take_eq_nil_iff]
  exact ⟨fun h => h.resolve_left (by decide), .inr⟩

/-- `finish` reports what is in the context. -/
theorem finish_reports (ctx : RunCtx) (result : Except Trap (Except String String)) :
    (finish ctx result).denials = ctx.denials ∧
      (((finish ctx result).status = "error" ∧
          ∃ message, (finish ctx result).error = some ⟨"capability_denied", message⟩) ↔
        ctx.denials ≠ []) := by
  unfold finish
  split
  · next hdenials => exact ⟨rfl, fun _ => hdenials, fun _ => ⟨rfl, _, rfl⟩⟩
  · next hdenials =>
    have hnil : ctx.denials = [] := not_not.mp hdenials
    rw [hnil]
    cases result with
    | error trap =>
      refine ⟨rfl, ?_, fun h => absurd rfl h⟩
      rintro ⟨-, message, herror⟩
      exact absurd (congrArg RunError.code (Option.some.inj herror)) (trapCode_ne trap)
    | ok returned =>
      cases returned with
      | ok output =>
        refine ⟨rfl, ?_, fun h => absurd rfl h⟩
        rintro ⟨hstatus, -⟩
        have hsame : "ok" = "error" := hstatus
        exact absurd hsame (by decide)
      | error message =>
        refine ⟨rfl, ?_, fun h => absurd rfl h⟩
        rintro ⟨-, text, herror⟩
        simp [RunOutput.failed] at herror

variable {raise : String → Trap} {moments : Nat → Moment} {guest : Guest} {grants : GrantSet}
  {denylist : Denylist}

theorem take_append_take {α : Type} (n : Nat) (xs ys : List α) :
    (xs.take n ++ ys).take n = (xs ++ ys).take n := by
  rw [List.take_append, List.take_append, List.take_take, Nat.min_self, List.length_take]
  congr 2
  omega

theorem accounted_iff {paramsJson : String} :
    Accounted grants denylist (invoke raise moments guest grants denylist paramsJson) ↔
      CleanStart raise moments guest grants denylist := by
  have hstart : Recorded (.new grants denylist)
      (exec raise moments guest 0 (.new grants denylist)) := exec_recorded guest 0 (Nat.zero_le _)
  rw [invoke, CleanStart]
  generalize exec raise moments guest 0 (.new grants denylist) = started at hstart ⊢
  obtain ⟨hgrants, hdenylist, hdenials, hlast⟩ := hstart
  change started.ctx.denials = (refusals grants denylist started.calls).take denialLimit at hdenials
  cases hresult : started.result with
  | error trap =>
    dsimp only
    constructor
    · rintro ⟨-, -, -, hdenied⟩ other -
      by_contra hrefused
      obtain ⟨-, message, herror⟩ := hdenied.mpr hrefused
      exact absurd (congrArg RunError.code (Option.some.inj herror)) (trapCode_ne trap)
    · intro hclean
      have hnone := hclean trap rfl
      refine ⟨?_, Nat.zero_le _, ?_, ?_⟩
      · rw [hnone]
        rfl
      · intro before moment call after hcalls hfull
        exact ⟨(hlast before moment call after hcalls hfull).1, trivial⟩
      · refine ⟨?_, fun h => absurd hnone h⟩
        rintro ⟨-, message, herror⟩
        exact absurd (congrArg RunError.code (Option.some.inj herror)) (trapCode_ne trap)
  | ok exported =>
    dsimp only
    refine ⟨fun _ _ htrap => (by cases htrap), fun _ => ?_⟩
    have hroom : started.ctx.denials.length ≤ denialLimit := by
      rw [hdenials, List.length_take]
      exact Nat.min_le_left _ _
    have hend : Recorded started.ctx
        (exec raise moments (exported paramsJson) started.calls.length started.ctx) :=
      exec_recorded _ _ hroom
    generalize exec raise moments (exported paramsJson) started.calls.length started.ctx =
      ended at hend ⊢
    obtain ⟨-, -, hdenials', hlast'⟩ := hend
    rw [hgrants, hdenylist, hdenials] at hdenials' hlast'
    have hall : ended.ctx.denials =
        (refusals grants denylist (started.calls ++ ended.calls)).take denialLimit := by
      rw [refusals_append, hdenials']
      exact take_append_take _ _ _
    obtain ⟨hreported, hstatus⟩ := finish_reports ended.ctx ended.result
    refine ⟨hreported.trans hall, ?_, ?_, ?_⟩
    · dsimp only
      rw [hreported, hall, List.length_take]
      exact Nat.min_le_left _ _
    · intro before moment call after hcalls hfull
      dsimp only at hcalls ⊢
      rw [List.append_eq_append_iff] at hcalls
      obtain ⟨more, hbefore, hcalls⟩ | ⟨more, hcalls, hafter⟩ := hcalls
      · refine hlast' more moment call after hcalls ?_
        rw [hbefore, refusals_append, List.length_append] at hfull
        rw [List.length_append, List.length_take]
        show denialLimit ≤ min denialLimit (refusals grants denylist started.calls).length +
          (refusals grants denylist more).length
        omega
      · cases more with
        | nil =>
          refine hlast' [] moment call after hafter.symm ?_
          rw [List.append_nil] at hcalls
          rw [hcalls]
          show denialLimit ≤ ((refusals grants denylist before).take denialLimit ++ []).length
          rw [List.append_nil, List.length_take]
          exact Nat.le_min.mpr ⟨Nat.le_refl _, hfull⟩
        | cons made more =>
          obtain ⟨rfl, -⟩ := List.cons.inj hafter
          obtain ⟨-, trap, htrap⟩ := hlast before moment call more hcalls hfull
          rw [hresult] at htrap
          cases htrap
    · dsimp only
      rw [hstatus, hall, Ne, take_limit_eq_nil]

/-- When a run accounts for its refused calls. -/
theorem refused_calls_accounted_iff (raise : String → Trap) (moments : Nat → Moment)
    (guest : Guest) (grants : GrantSet) (denylist : Denylist) (paramsJson : String) :
    Accounted grants denylist (invoke raise moments guest grants denylist paramsJson) ↔
      CleanStart raise moments guest grants denylist :=
  accounted_iff

/-! ## A component that fails to start -/

/-- A host with nothing on it. -/
def bareMoment : Moment where
  fs := ⟨[], rfl⟩
  elapsed := 0
  observed _ := .error "unavailable"
  env _ := none

/-- A start function asks for the environment, and then traps. -/
def failingStart : Guest :=
  .perform (.wasi "wasi:environment" [] [.list]) fun _ =>
    .done (.error ⟨"error while executing at wasm backtrace", "wasm unreachable", false⟩)

theorem start_denial_lost :
    ¬ Accounted ⟨[]⟩ ⟨[]⟩
      (invoke (fun err => ⟨err, err, false⟩) (fun _ => bareMoment) failingStart ⟨[]⟩ ⟨[]⟩ "") := by
  rw [accounted_iff]
  intro hclean
  have hnone := hclean ⟨"error while executing at wasm backtrace", "wasm unreachable", false⟩ rfl
  cases hnone

end Novbot.Runtime
