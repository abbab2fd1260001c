import Novbot.Lib.Check
import Novbot.Lib.JsonDecode
import Novbot.Lib.SortedMap
import Novbot.Lib.Text
import Mathlib.Data.String.Basic

/-!
# Specs and schedules on the node

`spec.rs` and `schedule.rs` of `novbot-core`, and `apply_config` of the node: a
configuration is decoded as a whole and takes the place of the one before.  The texts of
the two columns are taken as the values that they hold.
-/

namespace Novbot.Config

open Text

inductive SpecKind where
  | cpu
  | memory
  | disk
  | compliancePath
  | complianceSshd
  | complianceListeningPorts
  | complianceWorldWritable
  | complianceNtp
  | complianceRebootRequired
  | exec
  | skill
  | mcpTool
  deriving DecidableEq, Repr

/-- The names of the kinds. -/
def SpecKind.named : String → Option SpecKind
  | "cpu" => some .cpu
  | "memory" => some .memory
  | "disk" => some .disk
  | "compliance_path" => some .compliancePath
  | "compliance_sshd" => some .complianceSshd
  | "compliance_listening_ports" => some .complianceListeningPorts
  | "compliance_world_writable" => some .complianceWorldWritable
  | "compliance_ntp" => some .complianceNtp
  | "compliance_reboot_required" => some .complianceRebootRequired
  | "exec" => some .exec
  | "skill" => some .skill
  | "mcp_tool" => some .mcpTool
  | _ => none

/-- A probe definition. -/
structure Spec where
  id : String
  kind : SpecKind
  params : Json
  threshold : Option Json

def Spec.decode : Json.Decoder Spec := fun value => do
  let get ← Json.fields ["id", "kind", "params", "threshold"] value
  return {
    id := ← Json.required get "id" Json.string
    kind := ← Json.required get "kind" (Json.variant SpecKind.named)
    params := ← Json.orDefault get "params" Json.any .null
    threshold := ← Json.orDefault get "threshold" (Json.nullable Json.any) none }

def parseSpecs : Json → Except String (List Spec) := Json.list Spec.decode

/-- An object is read field by field. -/
theorem Spec.decode_obj_iff {members : List (String × Json)} {spec : Spec} :
    Spec.decode (.obj members) = .ok spec ↔
      Json.required (fun name => members.lookup name) "id" Json.string = .ok spec.id ∧
      Json.required (fun name => members.lookup name) "kind" (Json.variant SpecKind.named) =
        .ok spec.kind ∧
      Json.orDefault (fun name => members.lookup name) "params" Json.any .null = .ok spec.params ∧
      Json.orDefault (fun name => members.lookup name) "threshold" (Json.nullable Json.any) none =
        .ok spec.threshold := by
  unfold Spec.decode Json.fields
  simp only [Check.bind_eq_ok, Check.pure_eq_ok]
  constructor
  · rintro ⟨get, hget, id, hid, kind, hkind, params, hparams, threshold, hthreshold, rfl⟩
    cases hget
    exact ⟨hid, hkind, hparams, hthreshold⟩
  · rintro ⟨hid, hkind, hparams, hthreshold⟩
    exact ⟨_, rfl, _, hid, _, hkind, _, hparams, _, hthreshold, rfl⟩

/-! ## Schedules -/

structure Schedule where
  specId : String
  intervalSecs : Option Nat
  cron : Option String
  enabled : Bool
  deriving DecidableEq, Repr

def digits (value : Nat) : List Char → Option Nat
  | [] => some value
  | c :: cs => if c.isDigit then digits (value * 10 + (c.toNat - '0'.toNat)) cs else none

/-- `str::parse::<u64>`. -/
def parseU64 (text : String) : Option Nat :=
  let unsigned :=
    match text.toList with
    | '+' :: cs => cs
    | cs => cs
  if unsigned = [] then none else (digits 0 unsigned).filter (· < 2 ^ 64)

/-- `deser_opt_u64`: a number or its text, or `null`. -/
def optionalU64 : Json.Decoder (Option Nat)
  | .null => .ok none
  | .int value =>
    if value < 0 then .error "negative interval"
    else if value < 2 ^ 64 then .ok (some value.toNat)
    else .error "expected optional u64"
  | .str text =>
    match parseU64 text with
    | some value => .ok (some value)
    | none => .error "invalid digit found in string"
  | _ => .error "expected optional u64"

def Schedule.decode : Json.Decoder Schedule := fun value => do
  let get ← Json.fields ["spec_id", "interval_secs", "cron", "enabled"] value
  return {
    specId := ← Json.required get "spec_id" Json.string
    intervalSecs := ← Json.orDefault get "interval_secs" optionalU64 none
    cron := ← Json.orDefault get "cron" (Json.nullable Json.string) none
    enabled := ← Json.orDefault get "enabled" Json.boolean true }

/-- An object is read field by field. -/
theorem Schedule.decode_obj_iff {members : List (String × Json)} {schedule : Schedule} :
    Schedule.decode (.obj members) = .ok schedule ↔
      Json.required (fun name => members.lookup name) "spec_id" Json.string = .ok schedule.specId ∧
      Json.orDefault (fun name => members.lookup name) "interval_secs" optionalU64 none =
        .ok schedule.intervalSecs ∧
      Json.orDefault (fun name => members.lookup name) "cron" (Json.nullable Json.string) none =
        .ok schedule.cron ∧
      Json.orDefault (fun name => members.lookup name) "enabled" Json.boolean true =
        .ok schedule.enabled := by
  unfold Schedule.decode Json.fields
  simp only [Check.bind_eq_ok, Check.pure_eq_ok]
  constructor
  · rintro ⟨get, hget, specId, hspec, interval, hinterval, cron, hcron, enabled, henabled, rfl⟩
    cases hget
    exact ⟨hspec, hinterval, hcron, henabled⟩
  · rintro ⟨hspec, hinterval, hcron, henabled⟩
    exact ⟨_, rfl, _, hspec, _, hinterval, _, hcron, _, henabled, rfl⟩

def parseSchedules : Json → Except String (List Schedule) := Json.list Schedule.decode

/-! ## Applying -/

/-- What the node holds of its configuration. -/
structure RuntimeState where
  specs : SortedMap String Spec
  schedules : List Schedule
  configGeneration : Int
  configLoaded : Bool

def applyConfig (generation : Int) (specs schedules : Json) : Except String RuntimeState := do
  let specs ← parseSpecs specs
  let schedules ← parseSchedules schedules
  return ⟨.ofList (specs.map fun spec => (spec.id, spec)), schedules, generation, true⟩

/-- Both documents are applied, or neither is. -/
theorem applyConfig_ok_iff {generation : Int} {specs schedules : Json} :
    (∃ state, applyConfig generation specs schedules = .ok state ∧
        state.configGeneration = generation ∧ state.configLoaded = true) ↔
      (parseSpecs specs).isOk = true ∧ (parseSchedules schedules).isOk = true := by
  unfold applyConfig
  cases parseSpecs specs with
  | error err =>
    refine iff_of_false ?_ fun h => by cases h.1
    rintro ⟨state, h, -⟩
    cases h
  | ok specs =>
    cases parseSchedules schedules with
    | error err =>
      refine iff_of_false ?_ fun h => by cases h.2
      rintro ⟨state, h, -⟩
      cases h
    | ok schedules => exact iff_of_true ⟨_, rfl, rfl, rfl⟩ ⟨rfl, rfl⟩

end Novbot.Config
