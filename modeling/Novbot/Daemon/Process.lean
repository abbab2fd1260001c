import Novbot.Cron.Tick
import Novbot.Daemon.Probes
import Novbot.Lib.JsonPrint

/-!
# The node process

What the messages of the center, the dispatches and the ticks of the scheduler do to the state
of the process, and what is executed for them.  In every run a program is started only for the
clock, or as the shell of a configured `exec` spec while the node's own policy allows it
(`launches_allowed`).
-/

namespace Novbot.Daemon

open Config Probe

/-! ## The code -/

variable (json : Json.Codec)

/-- A blank text is an empty list. -/
def parseList {α : Type} (decode : Json → Except String (List α)) (raw : String) :
    Except String (List α) :=
  if (Text.trim raw.toList).isEmpty then .ok []
  else
    match json.parse raw with
    | some value => decode value
    | none => .error "invalid JSON"

def parseSpecsJson : String → Except String (List Spec) := parseList json parseSpecs

def parseSchedulesJson : String → Except String (List Schedule) := parseList json parseSchedules

/-- A schedule as it is printed. -/
def encodeSchedule (s : Schedule) : Json :=
  .obj [("spec_id", .str s.specId), ("interval_secs", s.intervalSecs.elim .null fun n => .int n),
    ("cron", s.cron.elim .null .str), ("enabled", .bool s.enabled)]

def encodeSchedules (schedules : List Schedule) : Json := .arr (schedules.map encodeSchedule)

/-- `apply_config`, on the texts of its documents. -/
def applyConfigTexts (generation : Int) (specsJson schedulesJson : String) :
    Except String RuntimeState := do
  let specs ← parseSpecsJson json specsJson
  let schedules ← parseSchedulesJson json schedulesJson
  return ⟨.ofList (specs.map fun spec => (spec.id, spec)), schedules, generation, true⟩

/-- A message of the center about the configuration. -/
inductive Message where
  | pullConfig (generation : Int) (specsJson schedulesJson : String)
  | pushConfig (generation : Int) (specsJson : String)
  | pushSchedule (generation : Int) (schedulesJson : String)

/-- The branches of `on_server` for these messages. -/
def onMessage (runtime : RuntimeState) : Message → Except String RuntimeState
  | .pullConfig generation specsJson schedulesJson =>
    applyConfigTexts json generation specsJson schedulesJson
  | .pushConfig generation specsJson =>
    applyConfigTexts json generation specsJson (json.print (encodeSchedules runtime.schedules))
  | .pushSchedule generation schedulesJson => do
    let schedules ← parseSchedulesJson json schedulesJson
    return { runtime with schedules, configGeneration := generation }

/-- The error of a message is logged, and the state stays. -/
def configure (runtime : RuntimeState) (message : Message) : RuntimeState :=
  match onMessage json runtime message with
  | .ok runtime => runtime
  | .error _ => runtime

/-- The params of a dispatch over those of its spec. -/
def applyDispatchOverlay (spec : Spec) (paramsJson : String) : Spec :=
  if (Text.trim paramsJson.toList).isEmpty then spec
  else
    match (json.parse paramsJson).bind Json.asObject with
    | none => spec
    | some overlay =>
      let base := (Json.asObject spec.params).getD []
      { spec with params := .obj (overlay.foldl (fun m (key, value) => Json.insert key value m) base) }

structure Process where
  runtime : RuntimeState
  lastRun : Cron.LastRun
  seenDispatchRuns : List String
  /-- The scheduler has not panicked. -/
  scheduling : Bool

def Process.new : Process := ⟨⟨.empty, [], 0, false⟩, .empty, [], true⟩

inductive Event where
  | message (message : Message)
  | dispatch (here : Surroundings) (runId specId paramsJson : String)
  | tick (env : Cron.Env) (here : Nat → Surroundings) (now : UInt64)

/-- An execution of a spec. -/
structure Executed where
  here : Surroundings
  spec : Spec

variable (policy : ProbePolicy)

/-- What a tick of this process meets. -/
def tickEnv (env : Cron.Env) (here : Nat → Surroundings) : Cron.Env :=
  { env with execute := fun i spec => outcome (here i) policy spec }

/-- The spec that `run_dispatch` executes, if there is one. -/
def dispatched (runtime : RuntimeState) (specId paramsJson : String) : Option Spec :=
  if runtime.configLoaded then
    (runtime.specs.lookup specId).map fun spec => applyDispatchOverlay json spec paramsJson
  else none

/-- `run_dispatch`: a run that was seen is not executed again.  A panic ends the process. -/
def Process.runDispatch (p : Process) (here : Surroundings) (runId specId paramsJson : String) :
    List Executed × Option Process :=
  if runId ≠ "" ∧ runId ∈ p.seenDispatchRuns then ([], some p)
  else
    let p := if runId = "" then p else { p with seenDispatchRuns := runId :: p.seenDispatchRuns }
    match dispatched json p.runtime specId paramsJson with
    | none => ([], some p)
    | some spec => ([⟨here, spec⟩], (outcome here policy spec).map fun _ => p)

/-- `run_due`; a panic ends the scheduler. -/
def Process.runTick (p : Process) (env : Cron.Env) (here : Nat → Surroundings) (now : UInt64) :
    List Executed × Option Process :=
  if p.scheduling then
    let (rans, lastRun) := Cron.tick (tickEnv policy env here) p.runtime p.lastRun now
    (rans.zipIdx.map fun (ran, i) => ⟨here i, ran.spec⟩,
      some { p with lastRun, scheduling := rans.all (·.egress.isSome) })
  else ([], some p)

/-- What an event executes, and the process afterwards. -/
def Process.step (p : Process) : Event → List Executed × Option Process
  | .message message => ([], some { p with runtime := configure json p.runtime message })
  | .dispatch here runId specId paramsJson => p.runDispatch json policy here runId specId paramsJson
  | .tick env here now => p.runTick policy env here now

/-- The process after some events, unless it ended. -/
def Process.run (p : Process) (events : List Event) : Option Process :=
  events.foldlM (fun p event => (p.step json policy event).2) p

/-! ## Where specs come from -/

/-- The specs of a message about the configuration. -/
def Message.specs : Message → Option (List Spec)
  | .pullConfig _ specsJson _ | .pushConfig _ specsJson => (parseSpecsJson json specsJson).toOption
  | .pushSchedule _ _ => none

/-- A spec that a message of the past has, with its id. -/
def GivenSpec (past : List Event) (id : String) (spec : Spec) : Prop :=
  spec.id = id ∧ ∃ message specs, Event.message message ∈ past ∧
    message.specs json = some specs ∧ spec ∈ specs

/-- Every configured spec was given. -/
def Given (past : List Event) (specs : SortedMap String Spec) : Prop :=
  ∀ id spec, specs.lookup id = some spec → GivenSpec json past id spec

section

variable {json} {policy}

theorem GivenSpec.mono {past more : List Event} {id : String} {spec : Spec}
    (h : GivenSpec json past id spec) : GivenSpec json (past ++ more) id spec := by
  obtain ⟨hid, message, specs, hmem, hspecs, hspec⟩ := h
  exact ⟨hid, message, specs, List.mem_append_left more hmem, hspecs, hspec⟩

theorem applyConfigTexts_ok {generation : Int} {specsJson schedulesJson : String}
    {runtime : RuntimeState}
    (h : applyConfigTexts json generation specsJson schedulesJson = .ok runtime) :
    ∃ specs schedules, parseSpecsJson json specsJson = .ok specs ∧
      parseSchedulesJson json schedulesJson = .ok schedules ∧
      runtime = ⟨.ofList (specs.map fun spec => (spec.id, spec)), schedules, generation, true⟩ := by
  unfold applyConfigTexts at h
  obtain ⟨specs, hspecs, h⟩ := Check.bind_eq_ok.mp h
  obtain ⟨schedules, hschedules, h⟩ := Check.bind_eq_ok.mp h
  exact ⟨specs, schedules, hspecs, hschedules, (Except.ok.inj h).symm⟩

/-- The specs after a message are those of the message or those before it. -/
theorem configure_specs (runtime : RuntimeState) (message : Message) :
    (configure json runtime message).specs = runtime.specs ∨
      ∃ specs, message.specs json = some specs ∧
        (configure json runtime message).specs = .ofList (specs.map fun spec => (spec.id, spec)) := by
  rw [configure]
  cases happlied : onMessage json runtime message with
  | error err => exact .inl rfl
  | ok after =>
    cases message with
    | pullConfig generation specsJson schedulesJson =>
      obtain ⟨specs, schedules, hspecs, -, rfl⟩ := applyConfigTexts_ok happlied
      exact .inr ⟨specs, by rw [Message.specs, hspecs]; rfl, rfl⟩
    | pushConfig generation specsJson =>
      obtain ⟨specs, schedules, hspecs, -, rfl⟩ := applyConfigTexts_ok happlied
      exact .inr ⟨specs, by rw [Message.specs, hspecs]; rfl, rfl⟩
    | pushSchedule generation schedulesJson =>
      obtain ⟨schedules, -, hafter⟩ := Check.bind_eq_ok.mp happlied
      cases hafter
      exact .inl rfl

theorem Given.message {past : List Event} {runtime : RuntimeState} {message : Message}
    (h : Given json past runtime.specs) :
    Given json (past ++ [.message message]) (configure json runtime message).specs := by
  intro id spec hspec
  rcases @configure_specs json runtime message with hsame | ⟨specs, hspecs, hnew⟩
  · rw [hsame] at hspec
    exact (h id spec hspec).mono
  · rw [hnew] at hspec
    obtain ⟨before, after, hsplit, -⟩ := SortedMap.lookup_ofList_eq_some_iff.mp hspec
    have hmem : (id, spec) ∈ specs.map fun spec => (spec.id, spec) := by
      rw [hsplit]
      exact List.mem_append_right _ List.mem_cons_self
    obtain ⟨found, hfound, heq⟩ := List.mem_map.mp hmem
    cases heq
    exact ⟨rfl, message, specs, List.mem_append_right _ (List.mem_singleton.mpr rfl), hspecs, hfound⟩

/-! ## Steps -/

theorem Process.runDispatch_specs {p p' : Process} {here : Surroundings}
    {runId specId paramsJson : String}
    (h : (p.runDispatch json policy here runId specId paramsJson).2 = some p') :
    p'.runtime = p.runtime := by
  rw [Process.runDispatch] at h
  split at h
  · cases h
    rfl
  · have hruntime : (if runId = "" then p
        else { p with seenDispatchRuns := runId :: p.seenDispatchRuns }).runtime = p.runtime := by
      split
      · rfl
      · rfl
    dsimp only at h
    rw [hruntime] at h
    cases hspec : dispatched json p.runtime specId paramsJson with
    | none =>
      rw [hspec] at h
      cases h
      exact hruntime
    | some spec =>
      rw [hspec] at h
      obtain ⟨result, -, rfl⟩ := Option.map_eq_some_iff.mp h
      exact hruntime

theorem Process.runTick_specs {p p' : Process} {env : Cron.Env} {here : Nat → Surroundings}
    {now : UInt64} (h : (p.runTick policy env here now).2 = some p') : p'.runtime = p.runtime := by
  rw [Process.runTick] at h
  split at h
  · cases h
    rfl
  · cases h
    rfl

theorem Given.mono {past more : List Event} {specs : SortedMap String Spec}
    (h : Given json past specs) : Given json (past ++ more) specs :=
  fun id spec hspec => (h id spec hspec).mono

theorem given_step {past : List Event} {p p' : Process} {event : Event}
    (h : Given json past p.runtime.specs) (hstep : (p.step json policy event).2 = some p') :
    Given json (past ++ [event]) p'.runtime.specs := by
  cases event with
  | message message =>
    cases hstep
    exact h.message
  | dispatch here runId specId paramsJson =>
    rw [Process.runDispatch_specs hstep]
    exact h.mono
  | tick env here now =>
    rw [Process.runTick_specs hstep]
    exact h.mono

theorem given_run {past events : List Event} {p p' : Process}
    (h : Given json past p.runtime.specs) (hrun : p.run json policy events = some p') :
    Given json (past ++ events) p'.runtime.specs := by
  induction events generalizing past p with
  | nil =>
    cases hrun
    rw [List.append_nil]
    exact h
  | cons event events ih =>
    obtain ⟨middle, hmiddle, hrest⟩ := Option.bind_eq_some_iff.mp hrun
    have hstep := given_step h hmiddle
    have hrest := ih hstep hrest
    rw [List.append_assoc] at hrest
    exact hrest

/-! ## What is executed -/

/-- The parameters that an event has for a configured spec. -/
def Event.Gives (json : Json.Codec) (spec : Spec) (params : Json) : Event → Prop
  | .message _ => False
  | .dispatch _ _ specId paramsJson =>
    specId = spec.id ∧ params = (applyDispatchOverlay json spec paramsJson).params
  | .tick _ _ _ => params = spec.params

/-- What an overlay leaves of a spec. -/
theorem applyDispatchOverlay_kind (spec : Spec) (paramsJson : String) :
    (applyDispatchOverlay json spec paramsJson).kind = spec.kind := by
  rw [applyDispatchOverlay]
  split
  · rfl
  · split
    · rfl
    · rfl

theorem dispatched_spec {past : List Event} {runtime : RuntimeState}
    (h : Given json past runtime.specs) {specId paramsJson : String} {spec : Spec}
    (hspec : dispatched json runtime specId paramsJson = some spec) :
    ∃ original, runtime.specs.lookup original.id = some original ∧ specId = original.id ∧
      spec = applyDispatchOverlay json original paramsJson := by
  rw [dispatched] at hspec
  split at hspec
  · obtain ⟨original, horiginal, rfl⟩ := Option.map_eq_some_iff.mp hspec
    obtain ⟨rfl, -⟩ := h specId original horiginal
    exact ⟨original, horiginal, rfl, rfl⟩
  · cases hspec

/-- Everything that is executed is a configured spec with the parameters of the event. -/
theorem executed_spec {past : List Event} {p : Process} {event : Event}
    (h : Given json past p.runtime.specs) {ran : Executed}
    (hran : ran ∈ (p.step json policy event).1) :
    ∃ spec, p.runtime.specs.lookup spec.id = some spec ∧ ran.spec.kind = spec.kind ∧
      event.Gives json spec ran.spec.params := by
  cases event with
  | message message => exact absurd hran List.not_mem_nil
  | dispatch here runId specId paramsJson =>
    rw [Process.step, Process.runDispatch] at hran
    split at hran
    · exact absurd hran List.not_mem_nil
    · have hruntime : (if runId = "" then p
          else { p with seenDispatchRuns := runId :: p.seenDispatchRuns }).runtime = p.runtime := by
        split
        · rfl
        · rfl
      dsimp only at hran
      rw [hruntime] at hran
      cases hspec : dispatched json p.runtime specId paramsJson with
      | none =>
        rw [hspec] at hran
        exact absurd hran List.not_mem_nil
      | some spec =>
        rw [hspec] at hran
        obtain ⟨original, hconfigured, hid, rfl⟩ := dispatched_spec h hspec
        rw [List.mem_singleton.mp hran]
        exact ⟨original, hconfigured, applyDispatchOverlay_kind original paramsJson, hid, rfl⟩
  | tick env here now =>
    rw [Process.step, Process.runTick] at hran
    split at hran
    · obtain ⟨⟨found, i⟩, hfound, rfl⟩ := List.mem_map.mp hran
      have hmem : found ∈ (Cron.tick (tickEnv policy env here) p.runtime p.lastRun now).1 := by
        obtain ⟨-, -, hplace⟩ := List.mem_zipIdx hfound
        rw [hplace]
        exact List.getElem_mem _
      have hspec := List.mem_map_of_mem (f := (·.spec)) hmem
      rw [Cron.tick_executions] at hspec
      have hselected := (Cron.runSpecs_executes 0 _).1.subset hspec
      obtain ⟨id, -, hlookup⟩ := List.mem_filterMap.mp hselected
      obtain ⟨rfl, -⟩ := h id found.spec hlookup
      exact ⟨found.spec, hlookup, rfl, rfl⟩
    · exact absurd hran List.not_mem_nil

/-- A shell that the policy allows, for a spec of the configuration and the parameters of an
event. -/
def AllowedShell (json : Json.Codec) (policy : ProbePolicy) (past : List Event) (p : Process)
    (event : Event) (l : Launch) : Prop :=
  policy.allowExec = true ∧ ∃ spec params, p.runtime.specs.lookup spec.id = some spec ∧
    GivenSpec json past spec.id spec ∧ spec.kind = .exec ∧ event.Gives json spec params ∧
    ShellLaunch params l

/-- In every run, whatever is executed starts the two programs for the clock, or a shell that
the policy allows; and without the policy an `exec` spec is told as refused. -/
theorem launches_allowed {past : List Event} {p : Process}
    (hrun : Process.new.run json policy past = some p) (event : Event) :
    ∀ ran ∈ (p.step json policy event).1,
      (∀ l ∈ launches ran.here policy ran.spec,
        ClockLaunch l ∨ AllowedShell json policy past p event l) ∧
      (policy.allowExec = false → ran.spec.kind = .exec → outcome ran.here policy ran.spec =
        some (execDisabledOutcome.status, execDisabledOutcome.payload)) := by
  have hgiven : Given json ([] ++ past) p.runtime.specs :=
    given_run (fun id spec hspec => by cases hspec) hrun
  rw [List.nil_append] at hgiven
  intro ran hran
  refine ⟨fun l hl => ?_, fun hpolicy hkind => outcome_refused hkind hpolicy⟩
  rcases specLaunch_of_mem hl with ⟨-, hclock⟩ | ⟨hallow, hkind, hshell⟩
  · exact .inl hclock
  · obtain ⟨spec, hconfigured, hsame, hgives⟩ := executed_spec hgiven hran
    exact .inr ⟨hallow, spec, ran.spec.params, hconfigured, hgiven spec.id spec hconfigured,
      hsame.symm.trans hkind, hgives, hshell⟩

end

/-! ### A shell for a dispatch -/

def motdSpecs : String :=
  "[\x7b\"id\":\"motd\",\"kind\":\"exec\",\"params\":\x7b\"command\":\"cat /etc/motd\"\x7d\x7d]"

/-- JSON as far as the run on `motdSpecs` uses it. -/
def motdJson : Json.Codec where
  parse text :=
    if text = motdSpecs then
      some (.arr [.obj [("id", .str "motd"), ("kind", .str "exec"),
        ("params", .obj [("command", .str "cat /etc/motd")])]])
    else none
  print value := .ofList value.compact

/-- A node on which every program runs and prints nothing. -/
def quietNode : Surroundings where
  commands _ _ _ := .ok ⟨[], [], some 0⟩
  files := ⟨fun _ => false, fun _ => .error "not found"⟩
  trees _ := none
  vars _ := none
  os := "linux"
  arch := "x86_64"
  family := "unix"
  measured _ := .error (.failed "mount not found: /")
  runHub _ := ("error", .null)

/-- The process with the specs of `motdSpecs`. -/
def motdProcess : Process :=
  { Process.new with runtime :=
      ⟨.ofList [("motd", ⟨"motd", .exec, .obj [("command", .str "cat /etc/motd")], none⟩)], [], 1, true⟩ }

/-- The run: one execution, which starts one shell. -/
theorem launches_allowed_motd :
    ((motdProcess.step motdJson ⟨true⟩ (.dispatch quietNode "run" "motd" "")).1.flatMap fun ran =>
      launches ran.here ⟨true⟩ ran.spec) = [⟨"sh", ["-c", "cat /etc/motd"], 5000⟩] ∧
    ∀ ran ∈ (motdProcess.step motdJson ⟨true⟩ (.dispatch quietNode "run" "motd" "")).1,
      (∀ l ∈ launches ran.here ⟨true⟩ ran.spec, ClockLaunch l ∨
        AllowedShell motdJson ⟨true⟩ [.message (.pullConfig 1 motdSpecs "")] motdProcess
          (.dispatch quietNode "run" "motd" "") l) ∧
      (true = false → ran.spec.kind = .exec → outcome ran.here ⟨true⟩ ran.spec =
        some (execDisabledOutcome.status, execDisabledOutcome.payload)) :=
  ⟨rfl, @launches_allowed motdJson ⟨true⟩ [.message (.pullConfig 1 motdSpecs "")] motdProcess rfl
    (.dispatch quietNode "run" "motd" "")⟩

end Novbot.Daemon
