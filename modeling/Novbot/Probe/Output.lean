import Novbot.Probe.Outcome
import Novbot.Lib.Lossy
import Novbot.Lib.Slice

/-!
# The output of commands

`truncate` slices a text at a number of bytes.  The probes that show what a command printed, or
what a file says, give an outcome exactly when no such text has a character across its limit;
otherwise the slice panics, and with it the task that runs the probe (`probes_shown_iff`).
-/

namespace Novbot.Probe

open Text

/-! ## Truncation -/

/-- `none` is the panic of a slice inside a character. -/
def truncate (s : List Char) (max : Nat) : Option (List Char) :=
  if byteLen s ≤ max then some s else (sliceTo max s).map (· ++ ['…'])

/-- A beginning of the text within the limit, and an ellipsis if something was cut. -/
def Truncates (limit : Nat) (text shown : List Char) : Prop :=
  ∃ head tail, text = head ++ tail ∧ byteLen head ≤ limit ∧
    shown = head ++ if tail = [] then [] else ['…']

/-- The text is short, or a character begins at the limit. -/
def Fits (limit : Nat) (text : List Char) : Prop := byteLen text ≤ limit ∨ OnBoundary text limit

theorem truncate_truncates {limit : Nat} {text shown : List Char} (h : truncate text limit = some shown) :
    Truncates limit text shown := by
  unfold truncate at h
  split at h
  · next hshort =>
    cases h
    exact ⟨text, [], (List.append_nil _).symm, hshort, (List.append_nil _).symm⟩
  · next hlong =>
    obtain ⟨head, hhead, rfl⟩ := Option.map_eq_some_iff.mp h
    obtain ⟨tail, rfl, hlen⟩ := sliceTo_eq_some_iff.mp hhead
    refine ⟨head, tail, rfl, Nat.le_of_eq hlen.symm, ?_⟩
    rw [if_neg]
    rintro rfl
    rw [List.append_nil] at hlong
    omega

theorem exists_truncate_iff {limit : Nat} {text : List Char} :
    (∃ shown, truncate text limit = some shown) ↔ Fits limit text := by
  unfold truncate Fits OnBoundary
  split
  · next hshort => exact iff_of_true ⟨text, rfl⟩ (.inl hshort)
  · next hlong =>
    rw [or_iff_right hlong]
    constructor
    · rintro ⟨shown, h⟩
      obtain ⟨head, hhead, -⟩ := Option.map_eq_some_iff.mp h
      obtain ⟨tail, hcs, hlen⟩ := sliceTo_eq_some_iff.mp hhead
      exact ⟨tail, sliceFrom_eq_some_iff.mpr ⟨head, hcs, hlen⟩⟩
    · rintro ⟨tail, h⟩
      obtain ⟨head, hcs, hlen⟩ := sliceFrom_eq_some_iff.mp h
      exact ⟨_, Option.map_eq_some_iff.mpr ⟨head, sliceTo_eq_some_iff.mpr ⟨tail, hcs, hlen⟩, rfl⟩⟩

/-! ## Commands -/

structure CommandOutput where
  stdout : List UInt8
  stderr : List UInt8
  /-- `None` for a command that a signal ended. -/
  code : Option Int

def CommandOutput.success (output : CommandOutput) : Bool := output.code = some 0

inductive CommandFailure where
  | timedOut
  | io (text : String)

/-- What a program with its arguments comes to within some milliseconds. -/
abbrev Commands := String → List String → Nat → Except CommandFailure CommandOutput

/-- A probe that gives a result, or panics. -/
abbrev Probing := Option (Except ProbeError ProbeOutcome)

def text (cs : List Char) : Json := .str (.ofList cs)

def probeExec (commands : Commands) (spec : Config.Spec) : Probing :=
  match (spec.params.get "command").bind Json.asStr with
  | none => some (.error (.params "command required"))
  | some cmdline =>
    match commands "sh" ["-c", cmdline] (min (natParam spec "timeout_ms" 5000) 30000) with
    | .error .timedOut => some (.error (.failed "exec timed out"))
    | .error (.io err) => some (.error (.io err))
    | .ok output => do
      let stdout ← truncate (fromUtf8Lossy output.stdout) 8192
      let stderr ← truncate (fromUtf8Lossy output.stderr) 4096
      return .ok ⟨if output.success then "ok" else "fail",
        .obj [("exit_code", output.code.elim .null .int), ("stderr", text stderr),
          ("stdout", text stdout)]⟩

/-! ## Clocks -/

def ntpTimeout (spec : Config.Spec) : Nat := min (natParam spec "timeout_ms" 3000) 10000

def runTimedatectl (commands : Commands) (spec : Config.Spec) : Except CommandFailure CommandOutput :=
  commands "timedatectl" ["show", "-p", "NTPSynchronized", "--value"] (ntpTimeout spec)

def runChronyc (commands : Commands) (spec : Config.Spec) : Except CommandFailure CommandOutput :=
  commands "chronyc" ["tracking"] (ntpTimeout spec)

def timedatectlOutcome (stdout : List Char) : Probing := do
  let synced := eqIgnoreCase (trim stdout) "yes".toList
  let raw ← truncate stdout 512
  return .ok ⟨passStatus synced, .obj [("check", .str "compliance_ntp"),
    ("findings", strings (if synced then [] else ["NTP not synchronized"])),
    ("method", .str "timedatectl"), ("ntp_synchronized", .bool synced), ("passed", .bool synced),
    ("raw", text raw)]⟩

def chronycOutcome (success : Bool) (stdout : List Char) : Probing := do
  let lower := stdout.map toAsciiLowercase
  let ok := success &&
    (hasInfix "Normal".toList stdout || hasInfix "leap status".toList lower)
  let leapNormal := (lines stdout).any fun line =>
    let line := line.map toAsciiLowercase
    hasInfix "leap status".toList line && hasInfix "normal".toList line
  let passed := ok && leapNormal
  let raw ← truncate stdout 1024
  return .ok ⟨passStatus passed, .obj [("check", .str "compliance_ntp"),
    ("findings", strings (if passed then [] else ["chronyc tracking not Normal / unavailable"])),
    ("leap_normal", .bool leapNormal), ("method", .str "chronyc"), ("passed", .bool passed),
    ("raw", text raw)]⟩

/-- The first of the two programs that runs decides. -/
def probeComplianceNtp (commands : Commands) (spec : Config.Spec) : Probing :=
  match runTimedatectl commands spec with
  | .ok output => timedatectlOutcome (fromUtf8Lossy output.stdout)
  | .error _ =>
    match runChronyc commands spec with
    | .ok output => chronycOutcome output.success (fromUtf8Lossy output.stdout)
    | .error _ => some (.ok ⟨"fail", .obj [("check", .str "compliance_ntp"),
        ("findings", strings ["neither timedatectl nor chronyc available"]),
        ("method", .str "none"), ("passed", .bool false)]⟩)

/-! ## Reboots -/

def rebootPath (spec : Config.Spec) : String := textParam spec "path" "/var/run/reboot-required"

def packagesFinding (shown : List Char) : String := "packages: " ++ .ofList shown

def probeComplianceRebootRequired (files : Files) (spec : Config.Spec) : Probing := do
  let path := rebootPath spec
  let expectAbsent := boolParam spec "expect_absent" true
  let present := files.present path
  let passed := if expectAbsent then !present else present
  let findings ←
    if !passed && present then
      match files.readToString (path ++ ".pkgs") with
      | .ok pkgs => do
        let shown ← truncate (trim pkgs.toList) 512
        pure ["reboot required marker present", packagesFinding shown]
      | .error _ => pure ["reboot required marker present"]
    else pure []
  return .ok ⟨passStatus passed, .obj [("check", .str "compliance_reboot_required"),
    ("exists", .bool present), ("expect_absent", .bool expectAbsent), ("findings", strings findings),
    ("passed", .bool passed), ("path", .str path)]⟩

/-! ## What is shown -/

/-- A member of an outcome shows a text. -/
def Shows (outcome : ProbeOutcome) (member : String) (limit : Nat) (cs : List Char) : Prop :=
  ∃ shown, outcome.payload.get member = some (text shown) ∧ Truncates limit cs shown

/-- The probe has an outcome with both texts of a command. -/
def ExecShown (commands : Commands) (spec : Config.Spec) (output : CommandOutput) : Prop :=
  ∃ outcome, probeExec commands spec = some (.ok outcome) ∧
    Shows outcome "stdout" 8192 (fromUtf8Lossy output.stdout) ∧
    Shows outcome "stderr" 4096 (fromUtf8Lossy output.stderr)

/-- The text that the probe of the clock shows, and its limit. -/
def ntpText (commands : Commands) (spec : Config.Spec) : Option (Nat × List Char) :=
  match runTimedatectl commands spec with
  | .ok output => some (512, fromUtf8Lossy output.stdout)
  | .error _ =>
    match runChronyc commands spec with
    | .ok output => some (1024, fromUtf8Lossy output.stdout)
    | .error _ => none

def NtpShown (commands : Commands) (spec : Config.Spec) : Prop :=
  ∃ outcome, probeComplianceNtp commands spec = some (.ok outcome) ∧
    ∀ limit cs, ntpText commands spec = some (limit, cs) → Shows outcome "raw" limit cs

/-- The packages that ask for a reboot, where a marker is there and should not be. -/
def rebootPackages (files : Files) (spec : Config.Spec) : Option (List Char) :=
  if boolParam spec "expect_absent" true && files.present (rebootPath spec) then
    match files.readToString (rebootPath spec ++ ".pkgs") with
    | .ok pkgs => some (trim pkgs.toList)
    | .error _ => none
  else none

def RebootShown (files : Files) (spec : Config.Spec) : Prop :=
  ∃ outcome, probeComplianceRebootRequired files spec = some (.ok outcome) ∧
    ∀ cs, rebootPackages files spec = some cs → ∃ shown,
      outcome.payload.get "findings" =
        some (strings ["reboot required marker present", packagesFinding shown]) ∧
      Truncates 512 cs shown

theorem execShown_iff {commands : Commands} {spec : Config.Spec} {cmdline : String}
    {output : CommandOutput} (hcommand : (spec.params.get "command").bind Json.asStr = some cmdline)
    (houtput : commands "sh" ["-c", cmdline] (min (natParam spec "timeout_ms" 5000) 30000) = .ok output) :
    ExecShown commands spec output ↔
      Fits 8192 (fromUtf8Lossy output.stdout) ∧ Fits 4096 (fromUtf8Lossy output.stderr) := by
  rw [← exists_truncate_iff, ← exists_truncate_iff, ExecShown, probeExec, hcommand]
  dsimp only
  rw [houtput]
  dsimp only
  constructor
  · rintro ⟨outcome, h, -⟩
    obtain ⟨stdout, hstdout, h⟩ := Option.bind_eq_some_iff.mp h
    obtain ⟨stderr, hstderr, -⟩ := Option.bind_eq_some_iff.mp h
    exact ⟨⟨stdout, hstdout⟩, stderr, hstderr⟩
  · rintro ⟨⟨stdout, hstdout⟩, stderr, hstderr⟩
    rw [hstdout, hstderr]
    exact ⟨_, rfl, ⟨stdout, rfl, truncate_truncates hstdout⟩, stderr, rfl, truncate_truncates hstderr⟩

/-- An outcome that is built from one truncated text and shows it. -/
theorem shows_iff {build : List Char → ProbeOutcome} {member : String} {limit : Nat} {cs : List Char}
    (hbuild : ∀ raw, (build raw).payload.get member = some (text raw)) :
    (∃ outcome, ((truncate cs limit).bind fun raw => some (.ok (build raw)) : Probing) =
        some (.ok outcome) ∧ Shows outcome member limit cs) ↔ Fits limit cs := by
  rw [← exists_truncate_iff]
  constructor
  · rintro ⟨outcome, h, -⟩
    obtain ⟨raw, hraw, -⟩ := Option.bind_eq_some_iff.mp h
    exact ⟨raw, hraw⟩
  · rintro ⟨raw, hraw⟩
    rw [hraw]
    exact ⟨build raw, rfl, raw, hbuild raw, truncate_truncates hraw⟩

theorem forall_some_pair {p : Nat → List Char → Prop} {limit : Nat} {cs : List Char} :
    (∀ limit' cs', some (limit, cs) = some (limit', cs') → p limit' cs') ↔ p limit cs := by
  constructor
  · exact fun h => h limit cs rfl
  · intro h limit' cs' heq
    cases heq
    exact h

theorem ntpShown_iff {commands : Commands} {spec : Config.Spec} :
    NtpShown commands spec ↔
      ∀ limit cs, ntpText commands spec = some (limit, cs) → Fits limit cs := by
  unfold NtpShown probeComplianceNtp ntpText
  cases runTimedatectl commands spec with
  | ok output =>
    simp only [forall_some_pair]
    exact shows_iff fun raw => rfl
  | error err =>
    cases runChronyc commands spec with
    | ok output =>
      simp only [forall_some_pair]
      exact shows_iff fun raw => rfl
    | error err => exact iff_of_true ⟨_, rfl, nofun⟩ nofun

theorem rebootShown_iff {files : Files} {spec : Config.Spec} :
    RebootShown files spec ↔ ∀ cs, rebootPackages files spec = some cs → Fits 512 cs := by
  have hpassed : ∀ absent present : Bool,
      (!(if absent then !present else present) && present) = (absent && present) := by decide
  unfold RebootShown probeComplianceRebootRequired rebootPackages
  simp only [hpassed]
  split
  · cases files.readToString (rebootPath spec ++ ".pkgs") with
    | error err => exact iff_of_true ⟨_, rfl, nofun⟩ nofun
    | ok pkgs =>
      simp only [Option.some.injEq, forall_eq', ← exists_truncate_iff]
      constructor
      · rintro ⟨outcome, h, -⟩
        obtain ⟨shown, hshown, -⟩ := Option.bind_eq_some_iff.mp h
        exact ⟨shown, hshown⟩
      · rintro ⟨shown, hshown⟩
        rw [hshown]
        exact ⟨_, rfl, shown, rfl, truncate_truncates hshown⟩
  · exact iff_of_true ⟨_, rfl, nofun⟩ nofun

/-- Each probe has its outcome, with its texts truncated between two characters, exactly when no
text has a character across its limit. -/
theorem probes_shown_iff (commands : Commands) (files : Files) (spec : Config.Spec) :
    (∀ cmdline output, (spec.params.get "command").bind Json.asStr = some cmdline →
      commands "sh" ["-c", cmdline] (min (natParam spec "timeout_ms" 5000) 30000) = .ok output →
      (ExecShown commands spec output ↔
        Fits 8192 (fromUtf8Lossy output.stdout) ∧ Fits 4096 (fromUtf8Lossy output.stderr))) ∧
    (NtpShown commands spec ↔
      ∀ limit cs, ntpText commands spec = some (limit, cs) → Fits limit cs) ∧
    (RebootShown files spec ↔ ∀ cs, rebootPackages files spec = some cs → Fits 512 cs) :=
  ⟨fun _ _ hcommand houtput => execShown_iff hcommand houtput, ntpShown_iff, rebootShown_iff⟩

/-! ### A character across the limit -/

def execSpec : Config.Spec := ⟨"exec", .exec, .obj [("command", .str "cat /etc/motd")], none⟩

/-- A command that prints 8191 letters and a character of two bytes. -/
def straddlingCommands : Commands := fun _ _ _ =>
  .ok ⟨utf8 (List.replicate 8191 'a' ++ ['é']), [], some 0⟩

theorem byteLen_replicate (n : Nat) : byteLen (List.replicate n 'a') = n := by
  induction n with
  | zero => rfl
  | succ n ih =>
    have hletter : 'a'.utf8Size = 1 := by decide
    rw [List.replicate_succ, byteLen_cons, ih, hletter, Nat.add_comm]

/-- A character of two bytes after the letters lies across the next byte. -/
theorem not_fits_straddling (n : Nat) : ¬ Fits (n + 1) (List.replicate n 'a' ++ ['é']) := by
  have hletter : 'é'.utf8Size = 2 := by decide
  rintro (hshort | ⟨rest, hrest⟩)
  · rw [byteLen_append, byteLen_replicate, byteLen_cons, hletter] at hshort
    omega
  · obtain ⟨head, hcs, hlen⟩ := sliceFrom_eq_some_iff.mp hrest
    rcases List.append_eq_append_iff.mp hcs.symm with ⟨more, hletters, -⟩ | ⟨more, rfl, hmore⟩
    · have hsum := congrArg byteLen hletters
      rw [byteLen_replicate, byteLen_append] at hsum
      omega
    · rw [byteLen_append, byteLen_replicate] at hlen
      cases more with
      | nil => exact absurd hlen (by rw [byteLen]; simp)
      | cons c more =>
        obtain ⟨rfl, hmore⟩ := List.cons.inj hmore
        rw [byteLen_cons, hletter] at hlen
        omega

theorem exec_straddles :
    ¬ ∀ commands files spec cmdline output,
      (spec.params.get "command").bind Json.asStr = some cmdline →
      commands "sh" ["-c", cmdline] (min (natParam spec "timeout_ms" 5000) 30000) = .ok output →
      ExecShown commands spec output ∧ NtpShown commands spec ∧ RebootShown files spec := by
  intro hall
  have hexec := (hall straddlingCommands ⟨fun _ => false, fun _ => .error "not found"⟩ execSpec
    "cat /etc/motd" _ rfl rfl).1
  have hfits := (execShown_iff rfl rfl).mp hexec
  rw [fromUtf8Lossy_utf8] at hfits
  exact not_fits_straddling 8191 hfits.1

end Novbot.Probe
