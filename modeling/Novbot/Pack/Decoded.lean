import Novbot.Lib.Check
import Novbot.Pack.Printed

/-!
# What the two readers find

`novbot-skill` and the node decode the written document, each with its own structures.
-/

namespace Novbot.Pack

open Novbot.Package Text Toml

/-! ## Members -/

@[simp] theorem lookup_textMember (key name : String) (value : Option String) :
    (textMember key value).lookup name = if name = key then value.map .str else none := by
  cases value with
  | none => simp [textMember]
  | some text => exact lookup_single key name (.str text)

@[simp] theorem lookup_numberMember (key name : String) (value : Option Nat) :
    (numberMember key value).lookup name = if name = key then value.map (.int ·) else none := by
  cases value with
  | none => simp [numberMember]
  | some n => exact lookup_single key name (.int n)

@[simp] theorem lookup_platformsMember (name : String) (platforms : List String) :
    (platformsMember platforms).lookup name =
      if name = "platforms" ∧ platforms ≠ [] then some (.arr (platforms.map .str)) else none := by
  unfold platformsMember
  split
  · next hne => simp [lookup_single, hne]
  · next hnil => simp [hnil]

section
variable (manifest : Manifest) (files : SortedMap String String)

def documentMembers : List (String × Toml) :=
  rootMembers manifest ++ [("runtime", Toml.table (runtimeMembers manifest)),
    ("files", Toml.table (fileMembers files))] ++
    arrayMember "capabilities" (manifest.capabilities.map capabilityMembers)

theorem fields_documentOf (names : List String) :
    fields names (documentOf manifest files) =
      .ok fun name => (documentMembers manifest files).lookup name := rfl

end

section
variable {members : List (String × Toml)} {name : String}

theorem optional_text {value : Option String} (h : members.lookup name = value.map .str) :
    Toml.optional (fun name => members.lookup name) name Toml.string = .ok value := by
  have hread := @optional_map _ (fun name => members.lookup name) _ name Toml.string value .str id h
    fun _ _ => rfl
  rwa [Option.map_id] at hread

theorem optional_word {value : Option Nat} (h : members.lookup name = value.map (.int ·))
    (hword : ∀ n ∈ value, n < 2 ^ 63) :
    Toml.optional (fun name => members.lookup name) name Toml.word = .ok value := by
  have hread := @optional_map _ (fun name => members.lookup name) _ name Toml.word value (.int ·) id h
    fun n hn => if_pos (hword n hn)
  rwa [Option.map_id] at hread

theorem optional_natural {value : Option Nat} (h : members.lookup name = value.map (.int ·)) :
    Toml.optional (fun name => members.lookup name) name Toml.natural = .ok value := by
  have hread := @optional_map _ (fun name => members.lookup name) _ name Toml.natural value (.int ·) id h
    fun _ _ => rfl
  rwa [Option.map_id] at hread

end

/-! ## Decoding -/

section
variable (manifest : Manifest) (files : SortedMap String String)

theorem lookup_limits :
    (limitsMembers manifest).lookup "timeout_ms" = manifest.timeoutMs.map (.int ·) ∧
      (limitsMembers manifest).lookup "memory_mb" = manifest.memoryMb.map (.int ·) := by
  simp [limitsMembers, List.lookup_append]

theorem decode_limits (h : manifest.Printable) :
    RawLimits.decode (.table (limitsMembers manifest)) =
      .ok ⟨manifest.timeoutMs, manifest.memoryMb⟩ := by
  obtain ⟨htimeout, hmemory⟩ := lookup_limits manifest
  have hword := optional_word htimeout h.timeout
  have hword' := optional_word hmemory h.memory
  simp only [RawLimits.decode, Check.bind_eq_ok, Check.pure_eq_ok]
  exact ⟨_, rfl, _, hword, _, hword', rfl⟩

theorem get_limits {α : Type} {decode : Toml.Decoder α} {limits default : α}
    (h : decode (.table (limitsMembers manifest)) = .ok limits)
    (hdefault : manifest.timeoutMs = none → manifest.memoryMb = none → default = limits) :
    orDefault (fun name => (runtimeMembers manifest).lookup name) "limits" decode default =
      .ok limits := by
  rw [orDefault, runtimeMembers]
  split_ifs with hnil
  · have hnone := limitsMembers_eq_nil.mp hnil
    rw [Bool.or_eq_false_iff, Option.isSome_eq_false_iff, Option.isSome_eq_false_iff,
      Option.isNone_iff_eq_none, Option.isNone_iff_eq_none] at hnone
    exact congrArg Except.ok (hdefault hnone.1 hnone.2)
  · exact h

theorem decode_runtime (h : manifest.Printable) :
    RawRuntime.decode (.table (runtimeMembers manifest)) =
      .ok ⟨"wasm", abi, ⟨manifest.timeoutMs, manifest.memoryMb⟩⟩ := by
  have hlimits := @get_limits manifest _ _ _ ⟨none, none⟩ (decode_limits manifest h)
    fun htimeout hmemory => by rw [htimeout, hmemory]
  simp only [RawRuntime.decode, Check.bind_eq_ok, Check.pure_eq_ok]
  exact ⟨_, rfl, _, rfl, _, rfl, _, hlimits, rfl⟩

/-- A capability as it is written. -/
def Capability.raw (cap : Capability) : RawCapability := ⟨some cap.name, cap.scope, cap.reason, none⟩

theorem get_scope (cap : Capability) :
    Toml.optional (fun name => (capabilityMembers cap).lookup name) "scope" Toml.string =
      .ok cap.scope :=
  optional_text (by simp [capabilityMembers, List.lookup_cons, List.lookup_append])

theorem get_reason (cap : Capability) :
    Toml.optional (fun name => (capabilityMembers cap).lookup name) "reason" Toml.string =
      .ok cap.reason :=
  optional_text (by simp [capabilityMembers, List.lookup_cons, List.lookup_append])

/-- A grant is not written. -/
theorem get_grant (cap : Capability) :
    Toml.optional (fun name => (capabilityMembers cap).lookup name) "grant" Toml.string = .ok none :=
  optional_text (by simp [capabilityMembers, List.lookup_cons, List.lookup_append])

theorem decode_capability (cap : Capability) :
    RawCapability.decode (.table (capabilityMembers cap)) = .ok cap.raw := by
  simp only [RawCapability.decode, Check.bind_eq_ok, Check.pure_eq_ok]
  exact ⟨_, rfl, some cap.name, rfl, _, get_scope cap, _, get_reason cap, _, get_grant cap, rfl⟩

/-- The document as `novbot-skill` decodes it. -/
def rawOf : RawManifest where
  schemaVersion := 1
  name := manifest.name
  version := manifest.version
  displayName := manifest.displayName
  description := manifest.description
  publisher := manifest.publisher
  platforms := manifest.platforms
  minNodeVersion := manifest.minNodeVersion
  runtime := ⟨"wasm", abi, ⟨manifest.timeoutMs, manifest.memoryMb⟩⟩
  capabilities := manifest.capabilities.map (·.raw)

/-- The texts that a manifest need not have. -/
theorem get_texts :
    Toml.optional (fun name => (documentMembers manifest files).lookup name) "display_name" Toml.string =
      .ok manifest.displayName ∧
    Toml.optional (fun name => (documentMembers manifest files).lookup name) "description" Toml.string =
      .ok manifest.description ∧
    Toml.optional (fun name => (documentMembers manifest files).lookup name) "publisher" Toml.string =
      .ok manifest.publisher ∧
    Toml.optional (fun name => (documentMembers manifest files).lookup name) "min_node_version"
      Toml.string = .ok manifest.minNodeVersion := by
  refine ⟨optional_text ?_, optional_text ?_, optional_text ?_, optional_text ?_⟩ <;>
    simp [documentMembers, rootMembers, List.lookup_append, List.lookup_cons, lookup_arrayMember]

theorem get_platforms :
    orDefault (fun name => (documentMembers manifest files).lookup name) "platforms"
      (Toml.list Toml.string) [] = .ok manifest.platforms := by
  have hget : (documentMembers manifest files).lookup "platforms" =
      if manifest.platforms ≠ [] then some (.arr (manifest.platforms.map .str)) else none := by
    simp [documentMembers, rootMembers, List.lookup_append, List.lookup_cons, lookup_arrayMember]
  have hread : Toml.list Toml.string (.arr (manifest.platforms.map .str)) = .ok (manifest.platforms.map id) :=
    list_map fun _ _ => rfl
  rw [List.map_id] at hread
  rw [orDefault, hget]
  split_ifs with hne
  · exact hread
  · rw [not_not.mp hne]

theorem get_capabilities {α : Type} {decode : Toml.Decoder α} {f : Capability → α}
    (h : ∀ cap, decode (.table (capabilityMembers cap)) = .ok (f cap)) :
    orDefault (fun name => (documentMembers manifest files).lookup name) "capabilities"
      (Toml.list decode) [] = .ok (manifest.capabilities.map f) := by
  have hget : (documentMembers manifest files).lookup "capabilities" =
      if manifest.capabilities ≠ [] then
        some (.arr (manifest.capabilities.map fun cap => .table (capabilityMembers cap))) else none := by
    simp [documentMembers, rootMembers, List.lookup_append, List.lookup_cons, lookup_arrayMember,
      Function.comp_def]
  have hread : Toml.list decode (.arr (manifest.capabilities.map fun cap =>
      .table (capabilityMembers cap))) = .ok (manifest.capabilities.map f) := list_map fun cap _ => h cap
  rw [orDefault, hget]
  split_ifs with hne
  · exact hread
  · rw [not_not.mp hne]
    rfl

theorem get_runtime {α : Type} (decode : Toml.Decoder α) :
    required (fun name => (documentMembers manifest files).lookup name) "runtime" decode =
      decode (.table (runtimeMembers manifest)) := by
  have hget : (documentMembers manifest files).lookup "runtime" =
      some (.table (runtimeMembers manifest)) := by
    simp [documentMembers, rootMembers, List.lookup_append, List.lookup_cons]
  rw [required, hget]

theorem decode_raw (h : manifest.Printable) :
    RawManifest.decode (documentOf manifest files) = .ok (rawOf manifest) := by
  obtain ⟨hdisplay, hdescription, hpublisher, hmin⟩ := get_texts manifest files
  simp only [RawManifest.decode, Check.bind_eq_ok, Check.pure_eq_ok]
  exact ⟨_, fields_documentOf manifest files _, 1, rfl, _, rfl, _, rfl, _, hdisplay, _, hdescription, _,
    hpublisher, _, get_platforms manifest files, _, hmin, _,
    (get_runtime manifest files _).trans (decode_runtime manifest h), _,
    get_capabilities manifest files decode_capability, rfl⟩

/-! ### The node -/

theorem decode_limitsToml :
    Skills.LimitsToml.decode (.table (limitsMembers manifest)) =
      .ok ⟨manifest.timeoutMs, manifest.memoryMb⟩ := by
  obtain ⟨htimeout, hmemory⟩ := lookup_limits manifest
  simp only [Skills.LimitsToml.decode, Check.bind_eq_ok, Check.pure_eq_ok]
  exact ⟨_, rfl, _, optional_natural htimeout, _, optional_natural hmemory, rfl⟩

theorem decode_runtimeToml :
    Skills.RuntimeToml.decode (.table (runtimeMembers manifest)) =
      .ok ⟨"wasm", abi, ⟨manifest.timeoutMs, manifest.memoryMb⟩⟩ := by
  have hlimits := @get_limits manifest _ _ _ ⟨none, none⟩ (decode_limitsToml manifest)
    fun htimeout hmemory => by rw [htimeout, hmemory]
  simp only [Skills.RuntimeToml.decode, Check.bind_eq_ok, Check.pure_eq_ok]
  exact ⟨_, rfl, _, rfl, _, rfl, _, hlimits, rfl⟩

theorem decode_capabilityToml (cap : Capability) :
    Skills.CapabilityToml.decode (.table (capabilityMembers cap)) =
      .ok ⟨some cap.name, cap.scope, none⟩ := by
  simp only [Skills.CapabilityToml.decode, Check.bind_eq_ok, Check.pure_eq_ok]
  exact ⟨_, rfl, some cap.name, rfl, _, get_scope cap, _, get_grant cap, rfl⟩

theorem get_files :
    required (fun name => (documentMembers manifest files).lookup name) "files" stringMap = .ok files := by
  have hget : (documentMembers manifest files).lookup "files" = some (.table (fileMembers files)) := by
    simp [documentMembers, rootMembers, List.lookup_append, List.lookup_cons]
  rw [required, hget]
  simp only [stringMap, Check.bind_eq_ok, Check.mapM_eq_ok, Check.pure_eq_ok]
  refine ⟨files.entries, ?_, SortedMap.ofList_entries files⟩
  rw [fileMembers, List.forall₂_map_left_iff, List.forall₂_same]
  exact fun _ _ => ⟨_, rfl, rfl⟩

theorem decode_manifestToml :
    Skills.ManifestToml.decode (documentOf manifest files) =
      .ok ⟨1, manifest.name, manifest.version, manifest.platforms,
        ⟨"wasm", abi, ⟨manifest.timeoutMs, manifest.memoryMb⟩⟩, files,
        manifest.capabilities.map fun cap => ⟨some cap.name, cap.scope, none⟩⟩ := by
  simp only [Skills.ManifestToml.decode, Check.bind_eq_ok, Check.pure_eq_ok]
  exact ⟨_, fields_documentOf manifest files _, 1, rfl, _, rfl, _, rfl, _,
    get_platforms manifest files, _, (get_runtime manifest files _).trans (decode_runtimeToml manifest),
    _, get_files manifest files, _, get_capabilities manifest files decode_capabilityToml, rfl⟩

end

end Novbot.Pack
