import Novbot.Lib.Text

/-!
# The grant grammar

`GrantSet.parse` of `novbot-skill-runtime`.  A grant is a capability name of two
or three dotted segments, with an optional scope after the first `:`.  The
capability table says which scope a name takes: none, a path glob or an
environment key.

Errors keep the whole grant string, as the source formats it.
-/

namespace Novbot.Runtime

open Text

/-- How a catalog capability is scoped. -/
inductive ScopeRequirement where
  | none
  | pathGlob
  | envKey
  deriving DecidableEq, Repr

structure CapabilityDef where
  name : String
  scope : ScopeRequirement
  deriving DecidableEq, Repr

/-- Host functions this runtime implements. -/
def capabilities : List CapabilityDef :=
  [⟨"fs.read", .pathGlob⟩, ⟨"fs.stat", .pathGlob⟩, ⟨"fs.list", .pathGlob⟩,
    ⟨"net.listening_ports.read", .none⟩, ⟨"sys.info.read", .none⟩, ⟨"sys.time_sync.read", .none⟩,
    ⟨"env.read", .envKey⟩, ⟨"sys.metrics.read", .none⟩, ⟨"proc.list.read", .none⟩,
    ⟨"net.interfaces.read", .none⟩]

inductive GrantError where
  /-- The string is not a grant, or the scope does not match the capability. -/
  | malformed (grant : String)
  /-- The name is not in `capabilities`. -/
  | unsupported (grant : String)
  deriving DecidableEq, Repr

def GrantError.toString : GrantError → String
  | .malformed grant => "malformed grant: " ++ grant
  | .unsupported grant => "capability not supported: " ++ grant

structure EnvPattern where
  keyPrefix : String
  wildcard : Bool
  deriving DecidableEq, Repr

inductive Scope where
  | path (glob : String)
  | env (pattern : EnvPattern)
  | bare
  deriving DecidableEq, Repr

/-- The declared scopes by capability name, in the order of the grants. -/
structure GrantSet where
  byName : List (String × List Scope)
  deriving DecidableEq, Repr

/-! ## Paths -/

def rejectSyntax (raw : List Char) : Bool :=
  raw.isEmpty || !(raw.head? == some '/') || raw.contains '\x00' || raw.contains '~' ||
    raw.contains '\\'

def validPathGlob (scope : List Char) : Bool :=
  if rejectSyntax scope then false
  else if scope.contains '\x7b' || scope.contains '\x7d' || scope.contains '[' ||
      scope.contains ']' || scope.contains '$' || hasInfix ['/', '/'] scope then false
  else
    let trimmed := trimEndMatches (· == '/') scope
    let body := if trimmed.isEmpty then ['/'] else trimmed
    if body = ['/'] then true
    else (split '/' body).tail.all fun segment =>
      !(segment.isEmpty || segment == ['.'] || segment == ['.', '.']) &&
        !(hasInfix ['*', '*'] segment && segment != ['*', '*'])

/-! ## Parsing -/

def validSegment : List Char → Bool
  | [] => false
  | ch :: chars =>
    isAsciiLowercase ch &&
      chars.all fun ch => isAsciiLowercase ch || isAsciiDigit ch || ch == '_'

def validCapName (name : List Char) : Bool :=
  match split '.' name with
  | [first, second] => validSegment first && validSegment second
  | [first, second, third] => validSegment first && validSegment second && validSegment third
  | _ => false

def splitGrant (grant : String) : Except GrantError (String × Option String) :=
  let chars := grant.toList
  if chars.isEmpty || chars.contains '\x00' then .error (.malformed grant)
  else
    match splitOnce ':' chars with
    | some (name, scope) =>
      if scope.isEmpty then .error (.malformed grant)
      else if !validCapName name then .error (.malformed grant)
      else .ok (.ofList name, some (.ofList scope))
    | none => if !validCapName chars then .error (.malformed grant) else .ok (grant, none)

def parseEnvScope (scope : List Char) : Option EnvPattern :=
  let core := (stripSuffix '*' scope).getD scope
  match core with
  | [] => none
  | ch :: chars =>
    if !(isAsciiUppercase ch || ch == '_') then none
    else if !(chars.all fun ch => isAsciiUppercase ch || isAsciiDigit ch || ch == '_') then none
    else some ⟨.ofList core, (stripSuffix '*' scope).isSome⟩

/-- The scope of one grant, under the requirement of its capability. -/
def parseScope (grant : String) : ScopeRequirement → Option String → Except GrantError Scope
  | .none, none => .ok .bare
  | .none, some _ => .error (.malformed grant)
  | .pathGlob, some scope =>
    if validPathGlob scope.toList then .ok (.path scope) else .error (.malformed grant)
  | .pathGlob, none => .error (.malformed grant)
  | .envKey, some scope =>
    match parseEnvScope scope.toList with
    | some pattern => .ok (.env pattern)
    | none => .error (.malformed grant)
  | .envKey, none => .error (.malformed grant)

/-- `by_name.entry(name).or_default().push(scope)`. -/
def GrantSet.push (set : GrantSet) (name : String) (scope : Scope) : GrantSet :=
  if set.byName.any (·.1 == name) then
    ⟨set.byName.map fun (n, scopes) => if n = name then (n, scopes ++ [scope]) else (n, scopes)⟩
  else ⟨set.byName ++ [(name, [scope])]⟩

/-- One round of the loop of `parse`. -/
def GrantSet.add (set : GrantSet) (grant : String) : Except GrantError GrantSet := do
  let (name, scope) ← splitGrant grant
  match capabilities.find? (·.name == name) with
  | none => .error (.unsupported grant)
  | some cap => return set.push name (← parseScope grant cap.scope scope)

def GrantSet.parse (grants : List String) : Except GrantError GrantSet :=
  grants.foldlM GrantSet.add ⟨[]⟩

example : GrantSet.parse ["fs.read:/etc/**", "sys.info.read"] =
    .ok ⟨[("fs.read", [.path "/etc/**"]), ("sys.info.read", [.bare])]⟩ := by decide

example : GrantSet.parse ["sys.info.read:/etc"] = .error (.malformed "sys.info.read:/etc") := by
  decide

end Novbot.Runtime
