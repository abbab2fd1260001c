import Novbot.Lib.TomlText
import Novbot.Skills.Package

/-!
# The manifest of a skill project

`manifest.rs` of `novbot-skill`: `skill.toml` is read and normalized, and written back in one
form with the hashes of the packed files.
-/

namespace Novbot.Pack

open Novbot.Package Text

structure Capability where
  name : String
  scope : Option String
  reason : Option String
  deriving DecidableEq, Repr

structure Manifest where
  name : String
  version : String
  displayName : Option String
  description : Option String
  publisher : Option String
  platforms : List String
  minNodeVersion : Option String
  timeoutMs : Option Nat
  memoryMb : Option Nat
  capabilities : List Capability
  deriving DecidableEq, Repr

def Capability.grant (cap : Capability) : String :=
  match cap.scope with
  | some scope => cap.name ++ ":" ++ scope
  | none => cap.name

def Manifest.grants (manifest : Manifest) : List String := manifest.capabilities.map (·.grant)

/-! ## Reading -/

structure RawLimits where
  timeoutMs : Option Nat
  memoryMb : Option Nat
  deriving DecidableEq, Repr

structure RawRuntime where
  kind : String
  abi : String
  limits : RawLimits
  deriving DecidableEq, Repr

structure RawCapability where
  name : Option String
  scope : Option String
  reason : Option String
  grant : Option String
  deriving DecidableEq, Repr

structure RawManifest where
  schemaVersion : Int
  name : String
  version : String
  displayName : Option String
  description : Option String
  publisher : Option String
  platforms : List String
  minNodeVersion : Option String
  runtime : RawRuntime
  capabilities : List RawCapability
  deriving DecidableEq, Repr

def RawLimits.decode : Toml.Decoder RawLimits := fun value => do
  let get ← Toml.fields ["timeout_ms", "memory_mb"] value
  return ⟨← Toml.optional get "timeout_ms" Toml.word, ← Toml.optional get "memory_mb" Toml.word⟩

def RawRuntime.decode : Toml.Decoder RawRuntime := fun value => do
  let get ← Toml.fields ["kind", "abi", "limits"] value
  return ⟨← Toml.required get "kind" Toml.string, ← Toml.required get "abi" Toml.string,
    ← Toml.orDefault get "limits" RawLimits.decode ⟨none, none⟩⟩

def RawCapability.decode : Toml.Decoder RawCapability := fun value => do
  let get ← Toml.fields ["name", "scope", "reason", "grant"] value
  return ⟨← Toml.optional get "name" Toml.string, ← Toml.optional get "scope" Toml.string,
    ← Toml.optional get "reason" Toml.string, ← Toml.optional get "grant" Toml.string⟩

def RawManifest.decode : Toml.Decoder RawManifest := fun value => do
  let get ← Toml.fields ["schema_version", "name", "version", "display_name", "description",
    "publisher", "platforms", "min_node_version", "runtime", "capabilities"] value
  return {
    schemaVersion := ← Toml.required get "schema_version" Toml.integer
    name := ← Toml.required get "name" Toml.string
    version := ← Toml.required get "version" Toml.string
    displayName := ← Toml.optional get "display_name" Toml.string
    description := ← Toml.optional get "description" Toml.string
    publisher := ← Toml.optional get "publisher" Toml.string
    platforms := ← Toml.orDefault get "platforms" (Toml.list Toml.string) []
    minNodeVersion := ← Toml.optional get "min_node_version" Toml.string
    runtime := ← Toml.required get "runtime" RawRuntime.decode
    capabilities := ← Toml.orDefault get "capabilities" (Toml.list RawCapability.decode) [] }

def trimmed (text : String) : String := .ofList (trim text.toList)

def nonempty (value : Option String) : Option String := (value.map trimmed).filter (· ≠ "")

/-- The text that names a capability: its `grant`, or else its name with the scope. -/
def RawCapability.preferred (raw : RawCapability) : Except String String :=
  match nonempty raw.grant with
  | some grant => .ok grant
  | none =>
    match nonempty raw.name with
    | some name =>
      match nonempty raw.scope with
      | some scope => .ok (name ++ ":" ++ scope)
      | none => .ok name
    | none => .error "capability is missing a name"

def normalizeCapability (raw : RawCapability) : Except String Capability := do
  let preferred ← raw.preferred
  match splitOnce ':' preferred.toList with
  | some (name, scope) =>
    if name ≠ [] ∧ scope ≠ [] then
      return ⟨.ofList name, some (.ofList scope), nonempty raw.reason⟩
    else throw "capability grant is malformed"
  | none => return ⟨preferred, none, nonempty raw.reason⟩

/-- The checks of `parse` after decoding. -/
def normalize (raw : RawManifest) : Except String Manifest := do
  if raw.schemaVersion ≠ 1 then throw "schema_version must be 1"
  if raw.runtime.kind ≠ "wasm" then throw "runtime.kind must be wasm"
  if raw.runtime.abi ≠ abi then throw ("runtime.abi must be " ++ abi)
  let name := trimmed raw.name
  let version := trimmed raw.version
  if name = "" ∨ version = "" then throw "name and version are required"
  let capabilities ← raw.capabilities.mapM normalizeCapability
  return {
    name, version, capabilities
    displayName := nonempty raw.displayName
    description := nonempty raw.description
    publisher := nonempty raw.publisher
    platforms := raw.platforms
    minNodeVersion := nonempty raw.minNodeVersion
    timeoutMs := raw.runtime.limits.timeoutMs
    memoryMb := raw.runtime.limits.memoryMb }

section
variable (formats : Formats)

def readRaw (text : String) : Except String RawManifest :=
  ((formats.toml text).bind RawManifest.decode).mapError fun _ => "skill.toml"

def parse (text : String) : Except String Manifest := do normalize (← readRaw formats text)

end

/-! ## Writing -/

def escape : Char → List Char
  | '\\' => ['\\', '\\']
  | '"' => ['\\', '"']
  | '\n' => ['\\', 'n']
  | c => [c]

def tomlString (value : String) : String := "\"" ++ .ofList (value.toList.flatMap escape) ++ "\""

def pushStr (key value : String) : String := key ++ " = " ++ tomlString value ++ "\n"

def pushOption (key : String) : Option String → String
  | some value => pushStr key value
  | none => ""

def pushNumber (key : String) : Option Nat → String
  | some value => key ++ " = " ++ toString value ++ "\n"
  | none => ""

def renderPlatforms (platforms : List String) : String :=
  if platforms ≠ [] then "platforms = [" ++ ", ".intercalate (platforms.map tomlString) ++ "]\n"
  else ""

def renderLimits (manifest : Manifest) : String :=
  if manifest.timeoutMs.isSome || manifest.memoryMb.isSome then
    "\n[runtime.limits]\n" ++ pushNumber "timeout_ms" manifest.timeoutMs ++
      pushNumber "memory_mb" manifest.memoryMb
  else ""

def renderFile (file : String × String) : String :=
  tomlString file.1 ++ " = " ++ tomlString file.2 ++ "\n"

def renderCapability (cap : Capability) : String :=
  "[[capabilities]]\n" ++ pushStr "name" cap.name ++ pushOption "scope" cap.scope ++
    pushOption "reason" cap.reason ++ "\n"

def render (manifest : Manifest) (files : SortedMap String String) : String :=
  "schema_version = 1\n" ++ pushStr "name" manifest.name ++ pushStr "version" manifest.version ++
    pushOption "display_name" manifest.displayName ++
    pushOption "description" manifest.description ++ pushOption "publisher" manifest.publisher ++
    pushOption "min_node_version" manifest.minNodeVersion ++ renderPlatforms manifest.platforms ++
    "\n[runtime]\nkind = \"wasm\"\nabi = \"novbot:skill@1\"\n" ++ renderLimits manifest ++
    "\n[files]\n" ++ String.join (files.entries.map renderFile) ++ "\n" ++
    String.join (manifest.capabilities.map renderCapability)

end Novbot.Pack
