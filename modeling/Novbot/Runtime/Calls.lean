import Novbot.Lib.Program
import Novbot.Runtime.Reads

/-!
# Host calls of a guest

The functions of `novbot-skill-runtime/src/host.rs` that a component imports, and the stubs
of `wasi_deny.rs` for the parts of WASI that it does not get.  Each looks at the number of
denials first, and a refused call is recorded and answered with an error that the guest may
ignore.

`perform_cases` says what one call does: nothing but trap at the limit, and else record the
call's refusal, if it has one.
-/

namespace Novbot.Runtime

open Text FileTree

/-! ## Calls -/

/-- The calls without an argument. -/
inductive Observation where
  | listeningPorts
  | interfaces
  | info
  | timeSync
  | metrics
  | processes
  deriving DecidableEq, Repr

def Observation.capability : Observation → String
  | .listeningPorts => "net.listening_ports.read"
  | .interfaces => "net.interfaces.read"
  | .info => "sys.info.read"
  | .timeSync => "sys.time_sync.read"
  | .metrics => "sys.metrics.read"
  | .processes => "proc.list.read"

inductive Scalar where
  | bool
  | signed (bits : Nat)
  | unsigned (bits : Nat)
  | float (bits : Nat)
  | char
  deriving DecidableEq, Repr

/-- A value of the component model.  Handles have no text in them. -/
inductive Val where
  | scalar (type : Scalar) (bits : Nat)
  | string (text : List Char)
  | list (items : List Val)
  | map
  | flags
  | tuple (items : List Val)
  | record (fields : List (String × Val))
  | option (item : Option Val)
  | enum (name : String)
  | variant (case : String) (payload : Option Val)
  | resultOk (item : Option Val)
  | resultErr (item : Option Val)
  | handle

inductive Ty where
  | scalar (type : Scalar)
  | string
  | list
  | map
  | flags
  | option
  | record (fields : List (String × Ty))
  | tuple (types : List Ty)
  | enum (names : List String)
  | variant (cases : List (String × Option Ty))
  | result (err : Option Ty)
  /-- What a stub cannot make: resources, futures, streams, lists of a fixed length. -/
  | handle

inductive Call where
  | fsRead (path : String) (maxBytes : Nat)
  | fsStat (path : String)
  | fsList (dir : String) (maxDepth maxEntries : Nat)
  | observe (what : Observation)
  | envGet (key : String)
  | log (level : Nat) (message : String)
  /-- A stub: `wasi:filesystem`, `wasi:sockets` or `wasi:environment`. -/
  | wasi (capability : String) (args : List Val) (results : List Ty)

structure FileStat where
  present : Bool
  kind : String
  deriving DecidableEq, Repr

/-- What a call returns when it does not trap. -/
def Reply : Call → Type
  | .fsRead .. => Except HostError (List UInt8)
  | .fsStat .. => Except HostError FileStat
  | .fsList .. => Except HostError (List (List Char))
  | .observe .. => Except HostError String
  | .envGet .. => Except HostError (Option String)
  | .log .. => Unit
  | .wasi .. => List Val

/-- What a call finds around it. -/
structure Moment where
  fs : FileSystem
  /-- Milliseconds since the run started. -/
  elapsed : UInt64
  observed : Observation → Except String String
  env : String → Option String

structure RunCtx where
  grants : GrantSet
  denylist : Denylist
  denials : List Denial
  logs : List (Nat × List Char)

/-! ## Stubs -/

/-- The longest start of a text in so many bytes. -/
def clip : Nat → List Char → List Char
  | _, [] => []
  | maxBytes, c :: cs =>
    let width := (utf8 [c]).length
    if width ≤ maxBytes then c :: clip (maxBytes - width) cs else []

mutual

def findString : Val → Option (List Char)
  | .string text => some text
  | .list items => findItem items
  | .tuple items => findItem items
  | .record fields => findField fields
  | .option (some item) => findString item
  | .variant _ (some item) => findString item
  | .resultOk (some item) => findString item
  | .resultErr (some item) => findString item
  | _ => none

def findItem : List Val → Option (List Char)
  | [] => none
  | item :: items =>
    match findString item with
    | some text => some text
    | none => findItem items

def findField : List (String × Val) → Option (List Char)
  | [] => none
  | (_, item) :: fields =>
    match findString item with
    | some text => some text
    | none => findField fields

end

def firstString : List Val → List Char
  | [] => []
  | value :: values =>
    match findString value with
    | some text => if text ≠ [] then clip 512 text else firstString values
    | none => firstString values

mutual

/-- `zero_val`, and `deny_val` where the type is a result. -/
def zeroVal : Ty → Except String Val
  | .scalar type => .ok (.scalar type 0)
  | .string => .ok (.string [])
  | .list => .ok (.list [])
  | .map => .ok .map
  | .flags => .ok .flags
  | .option => .ok (.option none)
  | .record fields => (zeroFields fields).map .record
  | .tuple types => (zeroItems types).map .tuple
  | .enum [] => .error "empty enum"
  | .enum (name :: _) => .ok (.enum name)
  | .variant [] => .error "empty variant"
  | .variant ((name, none) :: _) => .ok (.variant name none)
  | .variant ((name, some payload) :: _) =>
    (zeroVal payload).map fun value => .variant name (some value)
  | .result none => .ok (.resultErr none)
  | .result (some err) => (zeroVal err).map fun value => .resultErr (some value)
  | .handle => .error "cannot synthesize wasi value"

def zeroItems : List Ty → Except String (List Val)
  | [] => .ok []
  | type :: types =>
    match zeroVal type with
    | .error err => .error err
    | .ok value => (zeroItems types).map (value :: ·)

def zeroFields : List (String × Ty) → Except String (List (String × Val))
  | [] => .ok []
  | (name, type) :: fields =>
    match zeroVal type with
    | .error err => .error err
    | .ok value => (zeroFields fields).map ((name, value) :: ·)

end

/-- `fill_results`. -/
def fillResults (results : List Ty) : Except String (List Val) := zeroItems results

/-! ## The functions -/

def denialLimit : Nat := 16

def logLimit : Nat := 32

namespace RunCtx

variable (ctx : RunCtx) (moment : Moment)

def guardLimit : Except String Unit :=
  if ctx.denials.length ≥ denialLimit then .error "capability denial limit reached" else .ok ()

def pushDenial (capability : String) (target : List Char) (reason : DenialReason) : RunCtx :=
  { ctx with
    denials := ctx.denials ++
      [⟨capability, .ofList (clip 1024 target), reason, moment.elapsed⟩] }

def pushLog (level : Nat) (message : String) : RunCtx :=
  if ctx.logs.length ≥ logLimit then ctx
  else { ctx with logs := ctx.logs ++ [(level, clip 1024 message.toList)] }

/-- Looks at the number of denials, and goes on when there is room for one more. -/
def guarded {α : Type} (body : Except String α × RunCtx) : Except String α × RunCtx :=
  match ctx.guardLimit with
  | .error err => (.error err, ctx)
  | .ok () => body

def fsCall {α : Type} (capability raw : String) (useTarget : Bool)
    (allowed : Resolved → Except HostError α) : Except String (Except HostError α) × RunCtx :=
  ctx.guarded <|
    match authorizeFs moment.fs ctx.grants ctx.denylist capability raw useTarget with
    | .deny reason target =>
      (.ok (.error (witDenial capability target reason)),
        ctx.pushDenial moment capability target reason)
    | .allow resolved => (.ok (allowed resolved), ctx)

def statAllowed (resolved : Resolved) : Except HostError FileStat :=
  match moment.fs.symlinkMetadata resolved.own with
  | .ok (.link _) => .ok ⟨true, "symlink"⟩
  | .ok (.dir _) => .ok ⟨true, "dir"⟩
  | .ok (.file _) => .ok ⟨true, "file"⟩
  | .error .notFound => .ok ⟨false, "other"⟩
  | .error err => .error (ioError (.os err))

def observeCall (what : Observation) : Except String (Except HostError String) × RunCtx :=
  ctx.guarded <|
    match check moment.fs ctx.grants what.capability .none ctx.denylist with
    | some reason =>
      (.ok (.error (witDenial what.capability [] reason)),
        ctx.pushDenial moment what.capability [] reason)
    | none => (.ok ((moment.observed what).mapError .io), ctx)

def envCall (key : String) : Except String (Except HostError (Option String)) × RunCtx :=
  ctx.guarded <|
    match check moment.fs ctx.grants "env.read" (.env key) ctx.denylist with
    | some reason =>
      (.ok (.error (witDenial "env.read" key.toList reason)),
        ctx.pushDenial moment "env.read" key.toList reason)
    | none => (.ok (.ok (moment.env key)), ctx)

/-- `deny_wasi`. -/
def denyWasi (capability : String) (target : List Char) : RunCtx :=
  let reason := (check moment.fs ctx.grants capability .none ctx.denylist).getD
    .undeclaredCapability
  ctx.pushDenial moment capability target reason

def perform : (call : Call) → Except String (Reply call) × RunCtx
  | .fsRead path maxBytes =>
    ctx.fsCall moment "fs.read" path true (readAllowed moment.fs maxBytes)
  | .fsStat path => ctx.fsCall moment "fs.stat" path false (statAllowed moment)
  | .fsList dir maxDepth maxEntries =>
    ctx.fsCall moment "fs.list" dir true (listAllowed moment.fs maxDepth maxEntries)
  | .observe what => ctx.observeCall moment what
  | .envGet key => ctx.envCall moment key
  | .log level message => ctx.guarded (.ok (), ctx.pushLog level message)
  | .wasi capability args results =>
    ctx.guarded (fillResults results, ctx.denyWasi moment capability (firstString args))

end RunCtx

/-! ## What a call does -/

/-- The denial of a call that is refused. -/
def refusal (grants : GrantSet) (denylist : Denylist) (moment : Moment) (call : Call) :
    Option Denial :=
  let denial (capability : String) (target : List Char) (reason : DenialReason) : Denial :=
    ⟨capability, .ofList (clip 1024 target), reason, moment.elapsed⟩
  let fs (capability raw : String) (useTarget : Bool) : Option Denial :=
    match authorizeFs moment.fs grants denylist capability raw useTarget with
    | .deny reason target => some (denial capability target reason)
    | .allow _ => none
  match call with
  | .fsRead path _ => fs "fs.read" path true
  | .fsStat path => fs "fs.stat" path false
  | .fsList dir _ _ => fs "fs.list" dir true
  | .observe what =>
    (check moment.fs grants what.capability .none denylist).map (denial what.capability [])
  | .envGet key =>
    (check moment.fs grants "env.read" (.env key) denylist).map (denial "env.read" key.toList)
  | .log _ _ => none
  | .wasi capability args _ =>
    some (denial capability (firstString args)
      ((check moment.fs grants capability .none denylist).getD .undeclaredCapability))

/-- At the limit a call traps, and below it the refusal of the call is recorded. -/
structure Performed (ctx : RunCtx) (moment : Moment) (call : Call) (trapped : Prop)
    (ctx' : RunCtx) : Prop where
  grants : ctx'.grants = ctx.grants
  denylist : ctx'.denylist = ctx.denylist
  atLimit : denialLimit ≤ ctx.denials.length → trapped ∧ ctx'.denials = ctx.denials
  below : ctx.denials.length < denialLimit →
    ctx'.denials = ctx.denials ++ (refusal ctx.grants ctx.denylist moment call).toList

section
variable {ctx : RunCtx} {moment : Moment} {call : Call} {α : Type}

/-- A guarded body that keeps the grants and records a refusal. -/
theorem Performed.of_guarded {body : Except String α × RunCtx}
    (hgrants : body.2.grants = ctx.grants) (hdenylist : body.2.denylist = ctx.denylist)
    (hdenials : body.2.denials =
      ctx.denials ++ (refusal ctx.grants ctx.denylist moment call).toList) :
    Performed ctx moment call (∃ err, (ctx.guarded body).1 = .error err) (ctx.guarded body).2 := by
  by_cases hlimit : denialLimit ≤ ctx.denials.length
  · have hguard : ctx.guarded body = (.error "capability denial limit reached", ctx) := by
      rw [RunCtx.guarded, RunCtx.guardLimit, if_pos hlimit]
    rw [hguard]
    exact ⟨rfl, rfl, fun _ => ⟨⟨_, rfl⟩, rfl⟩, fun hlt => absurd hlimit (Nat.not_le_of_lt hlt)⟩
  · have hguard : ctx.guarded body = body := by
      rw [RunCtx.guarded, RunCtx.guardLimit, if_neg hlimit]
    rw [hguard]
    exact ⟨hgrants, hdenylist, fun h => absurd h hlimit, fun _ => hdenials⟩

theorem Performed.of_fsCall {capability raw : String} {useTarget : Bool}
    {allowed : Resolved → Except HostError α}
    (hrefusal : refusal ctx.grants ctx.denylist moment call =
      match authorizeFs moment.fs ctx.grants ctx.denylist capability raw useTarget with
      | .deny reason target =>
        some ⟨capability, .ofList (clip 1024 target), reason, moment.elapsed⟩
      | .allow _ => none) :
    Performed ctx moment call
      (∃ err, (ctx.fsCall moment capability raw useTarget allowed).1 = .error err)
      (ctx.fsCall moment capability raw useTarget allowed).2 := by
  unfold RunCtx.fsCall
  cases hauth : authorizeFs moment.fs ctx.grants ctx.denylist capability raw useTarget with
  | deny reason target =>
    refine .of_guarded rfl rfl ?_
    rw [hrefusal, hauth]
    rfl
  | allow resolved =>
    refine .of_guarded rfl rfl ?_
    rw [hrefusal, hauth]
    simp

theorem Performed.of_check {capability : String} {target : CheckTarget} {text : List Char}
    {allowed : Except HostError α}
    (hrefusal : refusal ctx.grants ctx.denylist moment call =
      (check moment.fs ctx.grants capability target ctx.denylist).map fun reason =>
        ⟨capability, .ofList (clip 1024 text), reason, moment.elapsed⟩) :
    let body : Except String (Except HostError α) × RunCtx :=
      match check moment.fs ctx.grants capability target ctx.denylist with
      | some reason =>
        (.ok (.error (witDenial capability text reason)),
          ctx.pushDenial moment capability text reason)
      | none => (.ok allowed, ctx)
    Performed ctx moment call (∃ err, (ctx.guarded body).1 = .error err) (ctx.guarded body).2 := by
  cases hcheck : check moment.fs ctx.grants capability target ctx.denylist with
  | none =>
    refine .of_guarded rfl rfl ?_
    rw [hrefusal, hcheck]
    simp
  | some reason =>
    refine .of_guarded rfl rfl ?_
    rw [hrefusal, hcheck]
    rfl

end

theorem performed (ctx : RunCtx) (moment : Moment) (call : Call) :
    Performed ctx moment call (∃ err, (ctx.perform moment call).1 = .error err)
      (ctx.perform moment call).2 := by
  cases call with
  | fsRead path maxBytes => exact .of_fsCall rfl
  | fsStat path => exact .of_fsCall rfl
  | fsList dir maxDepth maxEntries => exact .of_fsCall rfl
  | observe what => exact .of_check rfl
  | envGet key => exact .of_check rfl
  | log level message =>
    have hlog : (ctx.pushLog level message).grants = ctx.grants ∧
        (ctx.pushLog level message).denylist = ctx.denylist ∧
        (ctx.pushLog level message).denials = ctx.denials := by
      unfold RunCtx.pushLog
      split
      · exact ⟨rfl, rfl, rfl⟩
      · exact ⟨rfl, rfl, rfl⟩
    exact .of_guarded hlog.1 hlog.2.1 (by simp [refusal, hlog.2.2])
  | wasi capability args results => exact .of_guarded rfl rfl rfl

end Novbot.Runtime
