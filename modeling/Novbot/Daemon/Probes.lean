import Novbot.Config.Execute
import Novbot.Probe.Output
import Novbot.Probe.Ports
import Novbot.Probe.Sshd
import Novbot.Probe.WorldWritable

/-!
# What a spec starts

`run_probe` of `novbot-core` with its built-in skills, and `execute_spec` of the node, which
keep the programs that they start.  `Starts` bounds these programs, with one rule for each
way to build a probe.
-/

namespace Novbot.Daemon

open Config Probe Text

/-- A program that is started. -/
structure Launch where
  program : String
  arguments : List String
  timeoutMs : Nat
  deriving DecidableEq, Repr

/-- What is started, in order. -/
abbrev Launching := StateM (List Launch)

/-- What a probe meets on its node. -/
structure Surroundings where
  commands : Commands
  files : Files
  trees : String → Option Tree
  /-- `std::env::var`. -/
  vars : String → Option String
  os : String
  arch : String
  family : String
  /-- The probes of cpu, memory and disks, which `sysinfo` measures. -/
  measured : Spec → Except ProbeError ProbeOutcome
  /-- `SkillHost::run_hub`. -/
  runHub : HubRun → String × Json

structure ProbePolicy where
  allowExec : Bool
  deriving DecidableEq, Repr

variable (here : Surroundings)

def launch (program : String) (arguments : List String) (timeoutMs : Nat) :
    Launching (Except CommandFailure CommandOutput) := fun started =>
  (here.commands program arguments timeoutMs, started ++ [⟨program, arguments, timeoutMs⟩])

/-! ## Built-in skills -/

def hostnameString : String :=
  let fallback := (here.vars "HOSTNAME").getD "unknown"
  match here.files.readToString "/proc/sys/kernel/hostname" with
  | .ok text => if (trim text.toList).isEmpty then fallback else .ofList (trim text.toList)
  | .error _ => fallback

def skillHostInfo : ProbeOutcome :=
  ⟨"ok", .obj [("arch", .str here.arch), ("family", .str here.family),
    ("hostname", .str (hostnameString here)), ("os", .str here.os), ("skill", .str "host_info")]⟩

def skillEcho (arguments : Json) : ProbeOutcome :=
  ⟨"ok", .obj [("arguments", arguments), ("skill", .str "echo")]⟩

/-- The name of a variable that is not told. -/
def looksSensitive (key : String) : Bool :=
  let lower := key.toList.map toAsciiLowercase
  ["secret", "password", "token", "api_key"].any (fun word => hasInfix word.toList lower) ||
    "_key".toList.isSuffixOf lower

def skillEnvGet (arguments : Json) : Except ProbeError ProbeOutcome :=
  match (arguments.get "key").bind Json.asStr with
  | none => .error (.params "env_get requires arguments.key")
  | some key =>
    if looksSensitive key then
      .ok ⟨"fail", .obj [("error", .str "refused: key looks sensitive"), ("key", .str key),
        ("skill", .str "env_get")]⟩
    else
      let value := here.vars key
      .ok ⟨if value.isSome then "ok" else "fail", .obj [("key", .str key),
        ("present", .bool value.isSome), ("skill", .str "env_get"), ("value", optionalText value)]⟩

def invokeSkill (name : String) (arguments : Json) : Except ProbeError ProbeOutcome :=
  match name with
  | "host_info" => .ok (skillHostInfo here)
  | "echo" => .ok (skillEcho arguments)
  | "env_get" => skillEnvGet here arguments
  | other => .error (.params
      ("unknown skill/tool: " ++ other ++ " (known: host_info, echo, env_get)"))

/-- A skill or a tool that is run in the process. -/
def invokeNamed (kindIsMcp : Bool) (params : Json) : Except ProbeError ProbeOutcome :=
  match skillFromParams kindIsMcp params with
  | .ok (name, arguments) => invokeSkill here name arguments
  | .error err => .error (.params err)

/-! ## Probes -/

def probeCompliancePath (spec : Spec) : Except ProbeError ProbeOutcome :=
  match (spec.params.get "path").bind Json.asStr with
  | none => .error (.params "path required")
  | some path =>
    let mustExist := boolParam spec "must_exist" true
    let found := here.files.present path
    let ok := found == mustExist
    .ok ⟨passStatus ok, .obj [("check", .str "compliance_path"), ("exists", .bool found),
      ("must_exist", .bool mustExist), ("passed", .bool ok), ("path", .str path)]⟩

def execDisabledOutcome : ProbeOutcome :=
  ⟨"failed", .obj [("error", .str ("exec Spec kind is disabled on this node; enable it " ++
      "node-locally with --allow-exec or NOVBOT_ALLOW_EXEC=true")), ("reason", .str "exec_disabled")]⟩

/-- `probe_exec`, which starts a shell if it has a command. -/
def startExec (spec : Spec) : Launching Probing :=
  match (spec.params.get "command").bind Json.asStr with
  | none => return some (.error (.params "command required"))
  | some cmdline => do
    let result ← launch here "sh" ["-c", cmdline] (min (natParam spec "timeout_ms" 5000) 30000)
    return probeExec (fun _ _ _ => result) spec

/-- `probe_compliance_ntp`, which starts `chronyc` if `timedatectl` does not run. -/
def startComplianceNtp (spec : Spec) : Launching Probing := do
  match ← launch here "timedatectl" ["show", "-p", "NTPSynchronized", "--value"] (ntpTimeout spec) with
  | .ok output => return timedatectlOutcome (fromUtf8Lossy output.stdout)
  | .error _ =>
    match ← launch here "chronyc" ["tracking"] (ntpTimeout spec) with
    | .ok output => return chronycOutcome output.success (fromUtf8Lossy output.stdout)
    | .error _ => return some (.ok ⟨"fail", .obj [("check", .str "compliance_ntp"),
        ("findings", strings ["neither timedatectl nor chronyc available"]),
        ("method", .str "none"), ("passed", .bool false)]⟩)

def runProbe (policy : ProbePolicy) (spec : Spec) : Launching Probing :=
  match spec.kind with
  | .cpu | .memory | .disk => return some (here.measured spec)
  | .compliancePath => return some (probeCompliancePath here spec)
  | .complianceSshd => return some (probeComplianceSshd here.files spec)
  | .complianceListeningPorts => return some (.ok (probeComplianceListeningPorts here.files spec))
  | .complianceWorldWritable => return some (.ok (probeComplianceWorldWritable here.trees spec))
  | .complianceNtp => startComplianceNtp here spec
  | .complianceRebootRequired => return probeComplianceRebootRequired here.files spec
  | .exec => if policy.allowExec then startExec here spec else return some (.ok execDisabledOutcome)
  | .skill => return some (invokeNamed here false spec.params)
  | .mcpTool => return some (invokeNamed here true spec.params)

/-! ## Specs -/

/-- The text of an error. -/
def errorText : ProbeError → String
  | .params text => "unsupported or invalid params: " ++ text
  | .failed text => "probe failed: " ++ text
  | .io text => text

def probeOutcome (policy : ProbePolicy) (spec : Spec) : Launching (Option (String × Json)) := do
  return (← runProbe here policy spec).map fun
    | .ok outcome => (outcome.status, outcome.payload)
    | .error err => ("error", .obj [("error", .str (errorText err))])

/-- `execute_spec`; nothing comes back from a panic. -/
def executeSpec (policy : ProbePolicy) (spec : Spec) : Launching (Option (String × Json)) :=
  match Config.executeSpec spec with
  | .runHub run => return some (here.runHub run)
  | .probe => probeOutcome here policy spec

/-- What an execution comes to. -/
def outcome (policy : ProbePolicy) (spec : Spec) : Option (String × Json) :=
  (executeSpec here policy spec []).1

/-- What an execution starts. -/
def launches (policy : ProbePolicy) (spec : Spec) : List Launch := (executeSpec here policy spec []).2

theorem bind_fst {α β : Type} (action : Launching α) (next : α → Launching β) (started : List Launch) :
    ((action >>= next) started).1 = (next (action started).1 (action started).2).1 := rfl

/-- The outcome is the one of the probe without what it starts. -/
theorem startExec_fst (spec : Spec) (started : List Launch) :
    (startExec here spec started).1 = probeExec here.commands spec := by
  rw [startExec]
  cases hcommand : (spec.params.get "command").bind Json.asStr with
  | none =>
    rw [probeExec, hcommand]
    rfl
  | some cmdline =>
    rw [bind_fst]
    simp only [probeExec, hcommand]
    rfl

theorem startComplianceNtp_fst (spec : Spec) (started : List Launch) :
    (startComplianceNtp here spec started).1 = probeComplianceNtp here.commands spec := by
  rw [startComplianceNtp, bind_fst, probeComplianceNtp]
  show (((match runTimedatectl here.commands spec with | .ok _ => _ | .error _ => _) :
    Launching Probing) _).1 = _
  cases runTimedatectl here.commands spec with
  | ok output => rfl
  | error err =>
    dsimp only
    rw [bind_fst]
    show (((match runChronyc here.commands spec with | .ok _ => _ | .error _ => _) :
      Launching Probing) _).1 = _
    cases runChronyc here.commands spec with
    | ok output => rfl
    | error err => rfl

/-! ## Bounds on what is started -/

/-- Everything that is started is of a kind. -/
def Starts {α : Type} (kind : Launch → Prop) (action : Launching α) : Prop :=
  ∀ started, ∃ more, (action started).2 = started ++ more ∧ ∀ l ∈ more, kind l

section

variable {here} {α β : Type} {kind : Launch → Prop}

theorem starts_pure (a : α) : Starts kind (pure a : Launching α) :=
  fun started => ⟨[], (List.append_nil started).symm, fun _ hl => absurd hl List.not_mem_nil⟩

theorem starts_bind {action : Launching α} {next : α → Launching β} (h : Starts kind action)
    (hnext : ∀ a, Starts kind (next a)) : Starts kind (action >>= next) := by
  intro started
  obtain ⟨more, hmore, hkind⟩ := h started
  obtain ⟨rest, hrest, hkind'⟩ := hnext (action started).1 (action started).2
  refine ⟨more ++ rest, ?_, fun l hl => ?_⟩
  · have hrun : (action >>= next) started = next (action started).1 (action started).2 := rfl
    rw [hrun, hrest, hmore, List.append_assoc]
  · rcases List.mem_append.mp hl with hl | hl
    · exact hkind l hl
    · exact hkind' l hl

theorem starts_launch {program : String} {arguments : List String} {timeoutMs : Nat}
    (h : kind ⟨program, arguments, timeoutMs⟩) :
    Starts kind (launch here program arguments timeoutMs) := by
  intro started
  refine ⟨[⟨program, arguments, timeoutMs⟩], rfl, fun l hl => ?_⟩
  rw [List.mem_singleton.mp hl]
  exact h

/-! ## The programs of a spec -/

/-- A program that tells the state of the clock. -/
def ClockLaunch (l : Launch) : Prop :=
  ((l.program = "timedatectl" ∧ l.arguments = ["show", "-p", "NTPSynchronized", "--value"]) ∨
    l.program = "chronyc" ∧ l.arguments = ["tracking"]) ∧ l.timeoutMs ≤ 10000

/-- A shell that runs the command of some parameters. -/
def ShellLaunch (params : Json) (l : Launch) : Prop :=
  ∃ cmdline, (params.get "command").bind Json.asStr = some cmdline ∧ l.program = "sh" ∧
    l.arguments = ["-c", cmdline] ∧ l.timeoutMs ≤ 30000

/-- What a spec may start. -/
def SpecLaunch (policy : ProbePolicy) (spec : Spec) (l : Launch) : Prop :=
  (spec.kind = .complianceNtp ∧ ClockLaunch l) ∨
    policy.allowExec = true ∧ spec.kind = .exec ∧ ShellLaunch spec.params l

theorem starts_exec {spec : Spec} : Starts (ShellLaunch spec.params) (startExec here spec) := by
  rw [startExec]
  cases hcommand : (spec.params.get "command").bind Json.asStr with
  | none => exact starts_pure _
  | some cmdline =>
    have hshell : ShellLaunch spec.params
        ⟨"sh", ["-c", cmdline], min (natParam spec "timeout_ms" 5000) 30000⟩ :=
      ⟨cmdline, hcommand, rfl, rfl, Nat.min_le_right _ _⟩
    exact starts_bind (starts_launch hshell) fun result => starts_pure _

theorem starts_complianceNtp {spec : Spec} : Starts ClockLaunch (startComplianceNtp here spec) := by
  have htimeout : ntpTimeout spec ≤ 10000 := Nat.min_le_right _ _
  refine starts_bind (starts_launch ⟨.inl ⟨rfl, rfl⟩, htimeout⟩) fun first => ?_
  cases first with
  | ok output => exact starts_pure _
  | error err =>
    refine starts_bind (starts_launch ⟨.inr ⟨rfl, rfl⟩, htimeout⟩) fun second => ?_
    cases second with
    | ok output => exact starts_pure _
    | error err => exact starts_pure _

theorem Starts.mono {kind' : Launch → Prop} {action : Launching α} (h : Starts kind action)
    (hkind : ∀ l, kind l → kind' l) : Starts kind' action := by
  intro started
  obtain ⟨more, hmore, hmem⟩ := h started
  exact ⟨more, hmore, fun l hl => hkind l (hmem l hl)⟩

theorem starts_runProbe {policy : ProbePolicy} {spec : Spec} :
    Starts (SpecLaunch policy spec) (runProbe here policy spec) := by
  rw [runProbe]
  cases hkind : spec.kind with
  | exec =>
    cases hallow : policy.allowExec with
    | false => exact starts_pure _
    | true => exact starts_exec.mono fun l hl => .inr ⟨hallow, hkind, hl⟩
  | complianceNtp => exact starts_complianceNtp.mono fun l hl => .inl ⟨hkind, hl⟩
  | _ => exact starts_pure _

theorem starts_executeSpec {policy : ProbePolicy} {spec : Spec} :
    Starts (SpecLaunch policy spec) (executeSpec here policy spec) := by
  rw [executeSpec]
  cases Config.executeSpec spec with
  | runHub run => exact starts_pure _
  | probe => exact starts_bind starts_runProbe fun result => starts_pure _

theorem specLaunch_of_mem {policy : ProbePolicy} {spec : Spec} {l : Launch}
    (h : l ∈ launches here policy spec) : SpecLaunch policy spec l := by
  obtain ⟨more, hmore, hmem⟩ := @starts_executeSpec here policy spec []
  rw [launches, hmore, List.nil_append] at h
  exact hmem l h

/-- A refused spec is told as refused, whatever its parameters are. -/
theorem outcome_refused {policy : ProbePolicy} {spec : Spec} (hkind : spec.kind = .exec)
    (hallow : policy.allowExec = false) :
    outcome here policy spec = some (execDisabledOutcome.status, execDisabledOutcome.payload) := by
  have hexecute : Config.executeSpec spec = .probe := by rw [Config.executeSpec, hkind]
  have hrun : executeSpec here policy spec = probeOutcome here policy spec := by
    rw [executeSpec, hexecute]
  have hprobe : runProbe here policy spec = pure (some (.ok execDisabledOutcome)) := by
    rw [runProbe, hkind]
    dsimp only
    rw [hallow, if_neg Bool.false_ne_true]
  rw [outcome, hrun, probeOutcome, hprobe]
  rfl

end

end Novbot.Daemon
