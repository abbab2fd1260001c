import Novbot.Runtime.Host
import Novbot.Runtime.Paths

/-!
# Denials of host calls

The denylist of `novbot-skill-runtime/src/deny.rs`, which looks at the text of a path, and
the order of checks of a call in `grant.rs` and `host.rs` (`check`, `authorizeFs`).
-/

namespace Novbot.Runtime

open Text FileTree

/-! ## The denylist -/

structure Denylist where
  dataDirs : List (List Char)
  deriving DecidableEq, Repr

/-- What is after a text. -/
def stripPrefix (start text : List Char) : Option (List Char) :=
  if start.isPrefixOf text then some (text.drop start.length) else none

def aliases (path : List Char) : List (List Char) :=
  let path := trimSlash path
  path ::
    match stripPrefix "/private/".toList path with
    | some rest => ['/' :: rest]
    | none =>
      match stripPrefix ['/'] path with
      | some rest => ["/private/".toList ++ rest]
      | none => []

def pushDataDir (fs : FileSystem) (dirs : List (List Char)) (dir : List Name) :
    List (List Char) :=
  let text := match fs.canonicalize dir with
    | .ok real => displayPath real
    | .error _ => displayPath dir
  (aliases text).foldl (fun dirs text => if dirs.contains text then dirs else dirs ++ [text]) dirs

/-- `Denylist::new` of the directory of the run and the directory of the environment. -/
def Denylist.new (fs : FileSystem) (dataDir envDir : Option (List Name)) : Denylist :=
  let dirs := match dataDir with
    | some dir => pushDataDir fs [] dir
    | none => []
  match envDir with
  | some dir => ⟨pushDataDir fs dirs dir⟩
  | none => ⟨dirs⟩

def underDir (path dir : List Char) : Bool := path == dir || (dir ++ ['/']).isPrefixOf path

def homeSsh (path : List Char) : Bool :=
  match stripPrefix "/home/".toList path with
  | none => false
  | some rest =>
    match split '/' rest with
    | user :: dir :: _ => user ≠ [] && dir == ".ssh".toList
    | _ => false

def secretLeaf (leaf : Name) : Bool := leaf == "environ".toList || leaf == "mem".toList

def procSecret (path : List Char) : Bool :=
  match stripPrefix "/proc/".toList path with
  | none => false
  | some rest =>
    match split '/' rest with
    | [pid, leaf] => pid ≠ [] && secretLeaf leaf
    | _ => false

def sshHostKey (path : List Char) : Bool :=
  match stripPrefix "/etc/ssh/".toList path with
  | none => false
  | some name =>
    !name.contains '/' && "ssh_host_".toList.isPrefixOf name && "_key".toList.isSuffixOf name

def staticDeny (path : List Char) : Bool :=
  path == "/etc/shadow".toList || path == "/etc/gshadow".toList || sshHostKey path ||
    underDir path "/etc/ssl/private".toList || underDir path "/root".toList || homeSsh path ||
    procSecret path

namespace Denylist

variable (denylist : Denylist)

def hit (path : List Char) : Bool := staticDeny path || denylist.dataDirs.any (underDir path)

def deniesFs (path : Path) : Bool := (aliases (displayPath path)).any denylist.hit

def deniesEnv (_ : Denylist) (key : String) : Bool :=
  let lower := key.toList.map toAsciiLowercase
  hasInfix "secret".toList lower || hasInfix "password".toList lower ||
    hasInfix "token".toList lower || hasInfix "api_key".toList lower ||
    "_key".toList.isSuffixOf lower

end Denylist

/-! ## Checks -/

def EnvPattern.matches (pattern : EnvPattern) (key : String) : Bool :=
  if pattern.wildcard then pattern.keyPrefix.toList.isPrefixOf key.toList
  else key = pattern.keyPrefix

namespace GrantSet

variable (grants : GrantSet)

def declares (name : String) : Bool := grants.byName.any (·.1 == name)

def scopes (name : String) : List Scope := (grants.byName.lookup name).getD []

def pathMatches (fs : FileSystem) (name : String) (candidate : Path) : Bool :=
  (grants.scopes name).any fun
    | .path glob => globMatches fs glob.toList candidate
    | _ => false

def envMatches (name key : String) : Bool :=
  (grants.scopes name).any fun
    | .env pattern => pattern.matches key
    | _ => false

end GrantSet

inductive CheckTarget where
  | none
  | path (path : Path)
  | env (key : String)
  deriving DecidableEq, Repr

/-- Reserved: no declared capability is disabled. -/
def capDisabled (_ : CapabilityDef) : Bool := false

/-- Why a call is refused, if it is. -/
def check (fs : FileSystem) (grants : GrantSet) (name : String) (target : CheckTarget)
    (denylist : Denylist) : Option DenialReason :=
  match capabilities.find? (·.name == name) with
  | none => some .undeclaredCapability
  | some cap =>
    if !grants.declares name then some .undeclaredCapability
    else
      match cap.scope, target with
      | .none, _ => if capDisabled cap then some .capDisabled else none
      | .pathGlob, .path path =>
        if !grants.pathMatches fs name path then some .outOfScope
        else if capDisabled cap then some .capDisabled
        else if denylist.deniesFs path then some .policyDenied
        else none
      | .pathGlob, _ => some .outOfScope
      | .envKey, .env key =>
        if !grants.envMatches name key then some .outOfScope
        else if capDisabled cap then some .capDisabled
        else if denylist.deniesEnv key then some .policyDenied
        else none
      | .envKey, _ => some .outOfScope

/-- A path is allowed when a grant covers it and the denylist does not refuse it. -/
theorem check_path_eq_none {fs : FileSystem} {grants : GrantSet} {name : String}
    {denylist : Denylist} {path : Path} {cap : CapabilityDef}
    (hcap : capabilities.find? (·.name == name) = some cap) (hscope : cap.scope = .pathGlob) :
    check fs grants name (.path path) denylist = none ↔
      grants.declares name = true ∧ grants.pathMatches fs name path = true ∧
        denylist.deniesFs path = false := by
  rw [check, hcap]
  dsimp only
  rw [hscope]
  cases hdeclares : grants.declares name with
  | false => simp
  | true =>
    cases hmatches : grants.pathMatches fs name path with
    | false => simp [hmatches]
    | true => cases hdenies : denylist.deniesFs path <;> simp [hmatches, hdenies, capDisabled]

inductive FsAuth where
  | allow (resolved : Resolved)
  | deny (reason : DenialReason) (target : List Char)
  deriving DecidableEq, Repr

/-- `authorize_fs` after its look at the number of denials. -/
def authorizeFs (fs : FileSystem) (grants : GrantSet) (denylist : Denylist) (capability : String)
    (raw : String) (useTarget : Bool) : FsAuth :=
  if !grants.declares capability then .deny .undeclaredCapability raw.toList
  else if rejectSyntax raw.toList then .deny .outOfScope raw.toList
  else
    match resolve fs raw.toList with
    | none => .deny .outOfScope raw.toList
    | some resolved =>
      if useTarget && resolved.brokenSymlink then .deny .outOfScope (displayPath resolved.own)
      else
        let candidate := if useTarget then resolved.scope else resolved.own
        match check fs grants capability (.path candidate) denylist with
        | none => .allow resolved
        | some reason => .deny reason (displayPath candidate)

/-! ## Errors of calls -/

inductive IoError where
  | os (err : Errno)
  /-- `Error::other`. -/
  | other (message : String)
  deriving DecidableEq, Repr

def errnoText : Errno → String
  | .notFound => "No such file or directory (os error 2)"
  | .permissionDenied => "Permission denied (os error 13)"
  | .notDirectory => "Not a directory (os error 20)"
  | .isDirectory => "Is a directory (os error 21)"
  | .tooManyLinks => "Too many levels of symbolic links (os error 40)"

/-- A refusal as the guest sees it. -/
structure WitDenial where
  capability : String
  target : List Char
  reason : String
  deriving DecidableEq, Repr

inductive HostError where
  | denied (denial : WitDenial)
  | notFound (message : String)
  | io (message : String)
  deriving DecidableEq, Repr

def reasonStr : DenialReason → String
  | .undeclaredCapability => "undeclared_capability"
  | .outOfScope => "out_of_scope"
  | .capDisabled => "cap_disabled"
  | .policyDenied => "policy_denied"

def witDenial (capability : String) (target : List Char) (reason : DenialReason) : HostError :=
  .denied ⟨capability, target, reasonStr reason⟩

def ioError : IoError → HostError
  | .os .notFound => .notFound (errnoText .notFound)
  | .os err => .io (errnoText err)
  | .other message => .io message

end Novbot.Runtime
