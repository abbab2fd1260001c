import Novbot.Runtime.Grant

/-!
# Capabilities at upload

`validate_capability` of the center's catalog, with the checks of names and
scopes it rests on.  A capability that passes becomes a view: the grant string,
its parts, a risk and a description.
-/

namespace Novbot.Catalog

open Text

/-- Why an upload is refused. -/
inductive CatalogError where
  | packageTooLarge
  | invalidArchive (message : String)
  | invalidManifest (message : String)
  | invalidWasm (message : String)
  | nameReserved
  | capabilityUnsupported (message : String)
  | capabilityInvalid (message : String)
  deriving DecidableEq, Repr

/-- An entry of `capabilities`, as the center decodes it. -/
structure CapabilityToml where
  name : String
  scope : Option String
  reason : Option String
  deriving DecidableEq, Repr

structure CapabilityView where
  grant : String
  name : String
  scope : Option String
  risk : String
  description : String
  reason : Option String
  deriving DecidableEq, Repr

inductive CapKind where
  | fsPath
  | env
  | bare
  deriving DecidableEq, Repr

structure CapSpec where
  kind : CapKind
  risk : String
  bare : String
  deriving DecidableEq, Repr

/-! ## Names and scopes -/

/-- The same text as in the runtime. -/
def validCapName (name : List Char) : Bool := Runtime.validCapName name

def capSpecs : List (String × CapSpec) :=
  [("fs.read", ⟨.fsPath, "medium", "Read files"⟩),
    ("fs.stat", ⟨.fsPath, "low", "Stat files"⟩),
    ("fs.list", ⟨.fsPath, "medium", "List directory entries"⟩),
    ("env.read", ⟨.env, "high", "Read environment variables"⟩),
    ("net.listening_ports.read", ⟨.bare, "medium", "Read listening network ports"⟩),
    ("sys.info.read", ⟨.bare, "low", "Read system information"⟩),
    ("sys.time_sync.read", ⟨.bare, "low", "Read time synchronization status"⟩),
    ("sys.metrics.read", ⟨.bare, "low", "Read system metrics"⟩),
    ("proc.list.read", ⟨.bare, "medium", "List processes"⟩),
    ("net.interfaces.read", ⟨.bare, "low", "Read network interfaces"⟩)]

def capSpec (name : String) : Option CapSpec := capSpecs.lookup name

/-- `char::is_control`: the general category `Cc`. -/
def isControl (c : Char) : Bool := c.toNat < 0x20 || (0x7F ≤ c.toNat && c.toNat ≤ 0x9F)

/-- An absolute path.  Only its last segment may be empty. -/
def validFsScope (scope : List Char) : Bool :=
  if scope.isEmpty || !(scope.head? == some '/') || scope.contains '~' || scope.contains '\\' ||
      scope.any isControl then false
  else
    match split '/' scope with
    | [] :: parts =>
      parts.all (fun part => !(part == ['.', '.'] || part == ['.'])) &&
        parts.dropLast.all fun part => !part.isEmpty
    | _ => false

def validEnvScope (scope : List Char) : Bool :=
  match (stripSuffix '*' scope).getD scope with
  | [] => false
  | ch :: chars =>
    (isAsciiUppercase ch || ch == '_') &&
      chars.all fun ch => isAsciiUppercase ch || isAsciiDigit ch || ch == '_'

/-! ## One capability -/

/-- The scope of a capability, checked against its kind. -/
def checkScope (name : String) : CapKind → Option String → Except CatalogError (Option String)
  | .fsPath, some scope =>
    if validFsScope scope.toList then .ok (some scope)
    else .error (.capabilityInvalid ("capability scope is not an absolute path: " ++ scope))
  | .env, some scope =>
    if validEnvScope scope.toList then .ok (some scope)
    else .error (.capabilityInvalid
      ("env.read scope must match [A-Z_][A-Z0-9_]* with an optional trailing *: " ++ scope))
  | .bare, some _ =>
    .error (.capabilityInvalid ("capability " ++ name ++ " does not take a scope"))
  | .fsPath, none | .env, none =>
    .error (.capabilityInvalid ("capability " ++ name ++ " requires a scope"))
  | .bare, none => .ok none

/-- The grant string of a name and a scope. -/
def grantString (name : String) : Option String → String
  | some scope => name ++ ":" ++ scope
  | none => name

def capDescription (name : String) (spec : CapSpec) : Option String → String
  | some scope =>
    if name = "fs.read" then "Read files at " ++ scope ++ "."
    else if name = "fs.stat" then "Stat files at " ++ scope ++ "."
    else if name = "fs.list" then "List directory entries at " ++ scope ++ "."
    else if name = "env.read" then "Read environment variables matching " ++ scope ++ "."
    else spec.bare ++ "."
  | none => spec.bare ++ "."

def validateCapability (cap : CapabilityToml) : Except CatalogError CapabilityView := do
  if !validCapName cap.name.toList then
    throw (.capabilityInvalid ("capability name is invalid: " ++ cap.name))
  match capSpec cap.name with
  | none => throw (.capabilityUnsupported ("capability not supported: " ++ cap.name))
  | some spec =>
    let scope ← checkScope cap.name spec.kind cap.scope
    return ⟨grantString cap.name scope, cap.name, scope, spec.risk,
      capDescription cap.name spec scope, cap.reason⟩

/-- The loop over `capabilities`. -/
def validateCapabilities (caps : List CapabilityToml) : Except CatalogError (List CapabilityView) :=
  caps.mapM validateCapability

end Novbot.Catalog
