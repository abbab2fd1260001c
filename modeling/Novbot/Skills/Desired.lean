import Novbot.Skills.Package

/-!
# Desired skills

What the center asks a node to install, the limits of an install, and what can
happen during one attempt at it.  Durations are numbers of nanoseconds.

An `Attempt` holds what the outside decides: the answer of the source, the time
that passes, and which file operations fail.  Reading a directory's metadata or a
marker does not fail.
-/

namespace Novbot.Skills

open Novbot.Package Text

structure DesiredSkill where
  name : String
  version : String
  sha256 : String
  sizeBytes : Nat
  abi : String
  signatureEnvelope : Bytes
  fetchTicket : String
  deriving DecidableEq, Repr

structure SkillPolicy where
  maxConcurrentRuns : Nat
  keepPreviousVersions : Nat
  storeQuotaBytes : Nat
  maxTimeoutMs : Nat
  maxMemoryMb : Nat
  deriving DecidableEq, Repr

structure DesiredSet where
  generation : Int
  skills : List DesiredSkill
  policy : SkillPolicy

def defaultPolicy : SkillPolicy where
  maxConcurrentRuns := 4
  keepPreviousVersions := 2
  storeQuotaBytes := 256 * 1024 * 1024
  maxTimeoutMs := 30000
  maxMemoryMb := 64

/-- Effective run timeout.  `timeout_ms` of the manifest is a request. -/
def clampTimeoutMs (manifestMs : Option Nat) (policyMaxMs : Nat) : Nat :=
  match manifestMs with
  | some value => if value > 0 then min value policyMaxMs else policyMaxMs
  | none => policyMaxMs

def u64Max : Nat := 2 ^ 64 - 1

/-- Effective linear memory cap in bytes. -/
def clampMemoryBytes (manifestMb : Option Nat) (policyMaxMb : Nat) : Nat :=
  let mb := match manifestMb with
    | some value => if value > 0 then min value policyMaxMb else policyMaxMb
    | none => policyMaxMb
  min (mb * (1024 * 1024)) u64Max

/-! ## Limits -/

/-- Retry budget. -/
structure InstallLimits where
  maxAttempts : Nat
  maxElapsed : Nat
  minBackoff : Nat
  maxBackoff : Nat
  deriving DecidableEq, Repr

def Reason.retryable : Reason → Bool
  | .hashMismatch | .fetchFailed => true
  | _ => false

def nanosPerMilli : Nat := 1000000

/-- The pause after an attempt: doubled each time, with some milliseconds less. -/
def backoff (attempt : Nat) (limits : InstallLimits) : Nat :=
  if limits.maxBackoff = 0 ∨ limits.minBackoff = 0 then 0
  else
    let capped := min (limits.minBackoff * 2 ^ min (attempt - 1) 8) limits.maxBackoff
    let millis := min (capped / nanosPerMilli) u64Max
    let jitter := min (millis / 5) (attempt % 7 * 10)
    (millis - jitter) * nanosPerMilli

/-! ## Attempts -/

/-- Bytes of a package from an offset on. -/
structure Fetched where
  totalSize : Nat
  data : Bytes
  deriving DecidableEq, Repr

/-- The file operations of an attempt that may fail. -/
inductive Io where
  | downloadDir
  | readPart
  | removePart
  | readPrefix
  | openPart
  | writePart
  | syncPart
  | readPackage
  | removePackage
  | readModule
  | readToml
  | cache
  | staging
  | rename
  | chmod
  deriving DecidableEq, Repr

/-- The places where a store directory is removed. -/
inductive Removal where
  | stale
  | unsealed
  | trimmed
  deriving DecidableEq, Repr

structure Attempt where
  /-- What the source answers to a request from an offset. -/
  fetch : Nat → Except String Fetched
  /-- The error of an operation that fails. -/
  io : Io → Option String
  /-- How much of the data a failing write of the partial file writes. -/
  written : Nat
  /-- A removal that fails leaves some of the files of a directory. -/
  left : Removal → String → Option (String → Bool)
  /-- How long the attempt takes. -/
  took : Nat
  /-- How much longer than the pause the sleep after it takes. -/
  late : Nat

/-- `detail.replace(ticket, "[redacted]")`, with characters of a match to skip. -/
def redact (ticket : List Char) : Nat → List Char → List Char
  | _, [] => []
  | skip + 1, _ :: cs => redact ticket skip cs
  | 0, c :: cs =>
    if ticket.isPrefixOf (c :: cs) then "[redacted]".toList ++ redact ticket (ticket.length - 1) cs
    else c :: redact ticket 0 cs

def redactTicket (detail ticket : String) : String :=
  if ticket.isEmpty then detail else .ofList (redact ticket.toList 0 detail.toList)

end Novbot.Skills
