import Novbot.Lib.Memo
import Novbot.Runtime.Grant

/-!
# The component cache of the skill runtime

`run` and `component` of `novbot-skill-runtime/src/host.rs`.  One runtime keeps
one compiled component, under a `fingerprint` of its bytes.  The fingerprint
mixes the length and every 64th byte into 64 bits, and the lookup compares
nothing else.  So two modules of one length that agree on the sampled bytes
share an entry (`fingerprint_eq_of_sampled`).

The engine is a parameter: `compile` is `Component::new`, and `invoke` links,
instantiates and calls a compiled component.  A component in the cache keeps the
bytes it was compiled from, which the code does not, so that a run can be asked
whose code it executed.

`runs_execute_own_bytes_iff` states when every run of a runtime executes the
compilation of its own bytes: exactly when no run reaches the lookup with bytes
that differ from the last compiled ones and share their fingerprint.  Lookups
hold the cache lock, so a sequence of runs is the order of their lookups.
-/

namespace Novbot.Runtime

/-! ## Requests and outputs -/

/-- Why a host call was refused. -/
inductive DenialReason where
  | undeclaredCapability
  | outOfScope
  | capDisabled
  | policyDenied
  deriving DecidableEq, Repr

structure Denial where
  capability : String
  target : String
  reason : DenialReason
  atMs : UInt64
  deriving DecidableEq, Repr

structure RunError where
  code : String
  message : String
  deriving DecidableEq, Repr

/-- The result of one component run. -/
structure RunOutput where
  status : String
  error : Option RunError
  denials : List Denial
  partialOutput : Option String
  output : Option String
  deriving DecidableEq, Repr

def RunOutput.failed (code message : String) (denials : List Denial)
    (partialOutput : Option String) : RunOutput :=
  { status := "error", error := some ⟨code, message⟩, denials, partialOutput, output := none }

structure RunRequest where
  componentBytes : List UInt8
  grants : List String
  paramsJson : String
  dataDir : Option String
  /-- Milliseconds.  `none` leaves the epoch deadline open. -/
  timeout : Option Nat
  memoryBytes : Option Nat
  deriving DecidableEq, Repr

/-- The wasm engine, with the host functions linked to it. -/
structure Engine (Code : Type) where
  /-- `Component::new`. -/
  compile : List UInt8 → Except String Code
  /-- Instantiates a component under its grants and calls it. -/
  invoke : Code → GrantSet → RunRequest → Except String RunOutput

/-! ## The fingerprint -/

/-- `enumerate().step_by(64)`: every 64th byte with its index. -/
def sampled (bytes : List UInt8) : List (UInt8 × Nat) :=
  bytes.zipIdx.filter fun (_, index) => index % 64 = 0

def fingerprint (bytes : List UInt8) : UInt64 :=
  (sampled bytes).foldl
    (fun hash (byte, index) => hash * 0x1000000001b3 + byte.toUInt64 + .ofNat index)
    (.ofNat bytes.length)

/-- The fingerprint sees the length and the sampled bytes only. -/
theorem fingerprint_eq_of_sampled {a b : List UInt8} (hlen : a.length = b.length)
    (hbytes : ∀ i, i % 64 = 0 → a[i]? = b[i]?) : fingerprint a = fingerprint b := by
  have hs : sampled a = sampled b := by
    suffices h : ∀ (a b : List UInt8) (n : Nat), a.length = b.length →
        (∀ i, (n + i) % 64 = 0 → a[i]? = b[i]?) →
        (a.zipIdx n).filter (fun p => p.2 % 64 = 0) =
          (b.zipIdx n).filter (fun p => p.2 % 64 = 0) by
      exact h a b 0 hlen (by simpa using hbytes)
    intro a
    induction a with
    | nil =>
      intro b n hl _
      rw [List.length_eq_zero_iff.mp hl.symm]
    | cons x a ih =>
      intro b n hl hb
      cases b with
      | nil => simp at hl
      | cons y b =>
        have htail := ih b (n + 1) (by simpa using hl) fun i hi => by
          simpa using hb (i + 1) (by rw [← hi]; congr 1; omega)
        by_cases hn : n % 64 = 0
        · have hxy : x = y := by simpa using hb 0 hn
          simp [List.zipIdx_cons, hn, hxy, htail]
        · simp [List.zipIdx_cons, hn, htail]
  rw [fingerprint, fingerprint, hs, hlen]

/-! ## The runtime -/

variable {Code : Type}

/-- A compiled component with the bytes it came from. -/
abbrev Component (engine : Engine Code) := Memo.Entry fingerprint engine.compile

structure SkillRuntime (engine : Engine Code) where
  cache : Memo.Slot fingerprint engine.compile
  /-- Entries into `run`, including runs that fail before the guest is called. -/
  entries : UInt64

def SkillRuntime.new (engine : Engine Code) : SkillRuntime engine := ⟨none, 0⟩

variable {engine : Engine Code}

/-- The component of `bytes`: the cached one when its fingerprint agrees. -/
def component (runtime : SkillRuntime engine) (bytes : List UInt8) :
    Except String (Component engine) × SkillRuntime engine :=
  let (found, cache) := Memo.fetch runtime.cache bytes
  (found.mapError ("component bytes are not a wasm component: " ++ ·), { runtime with cache })

/-- What a run did: its output and the component it executed. -/
structure Ran (engine : Engine Code) where
  output : RunOutput
  /-- `none` when the run ended before the guest was called. -/
  executed : Option (Component engine)

def run (runtime : SkillRuntime engine) (request : RunRequest) :
    Ran engine × SkillRuntime engine :=
  let runtime := { runtime with entries := runtime.entries + 1 }
  match GrantSet.parse request.grants with
  | .error err => (⟨.failed "capability_unsupported" err.toString [] none, none⟩, runtime)
  | .ok grants =>
    match component runtime request.componentBytes with
    | (.error err, runtime) => (⟨.failed "invalid_component" err [] none, none⟩, runtime)
    | (.ok found, runtime) =>
      match engine.invoke found.result grants request with
      | .ok output => (⟨output, some found⟩, runtime)
      | .error err => (⟨.failed "runtime_error" err [] none, some found⟩, runtime)

/-- The runs of a sequence of requests, each with its request. -/
def runAll (runtime : SkillRuntime engine) : List RunRequest → List (RunRequest × Ran engine)
  | [] => []
  | request :: requests =>
    let (ran, runtime) := run runtime request
    (request, ran) :: runAll runtime requests

/-! ## Whose code a run executes -/

/-- The run executed nothing but the compilation of the request's bytes. -/
def ExecutesOwn (request : RunRequest) (ran : Ran engine) : Prop :=
  ∀ found, ran.executed = some found →
    found.source = request.componentBytes ∧
      engine.compile request.componentBytes = .ok found.result

/-- The grants of the request parse, so its run looks the component up. -/
def reachesLookup (request : RunRequest) : Bool :=
  match GrantSet.parse request.grants with
  | .ok _ => true
  | .error _ => false

theorem run_of_not_reaches (runtime : SkillRuntime engine) {request : RunRequest}
    (h : reachesLookup request = false) :
    (run runtime request).1.executed = none ∧ (run runtime request).2.cache = runtime.cache := by
  cases hg : GrantSet.parse request.grants with
  | error err => simp [run, hg]
  | ok grants => simp [reachesLookup, hg] at h

theorem run_of_reaches (runtime : SkillRuntime engine) {request : RunRequest}
    (h : reachesLookup request = true) :
    (run runtime request).1.executed =
        (Memo.fetch runtime.cache request.componentBytes).1.toOption ∧
      (run runtime request).2.cache = (Memo.fetch runtime.cache request.componentBytes).2 := by
  cases hg : GrantSet.parse request.grants with
  | error err => simp [reachesLookup, hg] at h
  | ok grants =>
    cases hf : (Memo.fetch runtime.cache request.componentBytes).1 with
    | error err => simp [run, hg, component, hf, Except.mapError, Except.toOption]
    | ok found =>
      cases hi : engine.invoke found.result grants request <;>
        simp [run, hg, component, hf, hi, Except.mapError, Except.toOption]

theorem run_own_iff (runtime : SkillRuntime engine) (request : RunRequest) :
    ExecutesOwn request (run runtime request).1 ↔
      (reachesLookup request = true → runtime.cache.ClearFor request.componentBytes) := by
  by_cases hr : reachesLookup request = true
  · have hex := (run_of_reaches runtime hr).1
    rw [← Memo.fetch_own_iff]
    constructor
    · intro hown _ found hfound
      exact (hown found (by rw [hex, hfound]; rfl)).1
    · intro hown found hfound
      cases hf : (Memo.fetch runtime.cache request.componentBytes).1 with
      | error err => rw [hex, hf] at hfound; cases hfound
      | ok entry =>
        rw [hex, hf] at hfound
        cases hfound
        have hs := hown hr found hf
        exact ⟨hs, hs ▸ found.made⟩
  · have hex := (run_of_not_reaches runtime (by simpa using hr)).1
    refine ⟨fun _ h => absurd h hr, fun _ found hfound => ?_⟩
    rw [hex] at hfound
    cases hfound

/-! ## Sequences of runs -/

/-- The bytes compiled last after a request, when `last` were before it. -/
def lastCompiled (engine : Engine Code) (last : Option (List UInt8)) (request : RunRequest) :
    Option (List UInt8) :=
  if reachesLookup request then Memo.keep engine.compile last request.componentBytes else last

theorem run_source {runtime : SkillRuntime engine} {request : RunRequest}
    (h : ExecutesOwn request (run runtime request).1) :
    (run runtime request).2.cache.source =
      lastCompiled engine runtime.cache.source request := by
  by_cases hr : reachesLookup request = true
  · rw [(run_of_reaches runtime hr).2, lastCompiled, if_pos hr]
    exact Memo.fetch_source ((run_own_iff runtime request).mp h hr)
  · rw [(run_of_not_reaches runtime (by simpa using hr)).2, lastCompiled, if_neg hr]

/-- No request that reaches the lookup shares its fingerprint with different
bytes that were compiled last before it. -/
def NoCollision (engine : Engine Code) : Option (List UInt8) → List RunRequest → Prop
  | _, [] => True
  | last, request :: requests =>
    (reachesLookup request = true → ∀ bytes, last = some bytes →
      fingerprint bytes = fingerprint request.componentBytes →
        bytes = request.componentBytes) ∧
    NoCollision engine (lastCompiled engine last request) requests

/-- Every run of the sequence executes its own code. -/
def AllExecuteOwn (runtime : SkillRuntime engine) (requests : List RunRequest) : Prop :=
  ∀ request ran, (request, ran) ∈ runAll runtime requests → ExecutesOwn request ran

theorem allExecuteOwn_cons (runtime : SkillRuntime engine) (request : RunRequest)
    (requests : List RunRequest) :
    AllExecuteOwn runtime (request :: requests) ↔
      ExecutesOwn request (run runtime request).1 ∧
        AllExecuteOwn (run runtime request).2 requests := by
  constructor
  · intro h
    exact ⟨h _ _ (by simp [runAll]), fun r ran hm => h r ran (by simp [runAll, hm])⟩
  · rintro ⟨hone, hrest⟩ r ran hm
    simp only [runAll, List.mem_cons, Prod.mk.injEq] at hm
    rcases hm with ⟨rfl, rfl⟩ | hm
    · exact hone
    · exact hrest r ran hm

/-- The induction behind `runs_execute_own_bytes_iff`: the slot holds the bytes
compiled last for as long as every run executes its own. -/
theorem allExecuteOwn_iff (runtime : SkillRuntime engine) (requests : List RunRequest) :
    AllExecuteOwn runtime requests ↔ NoCollision engine runtime.cache.source requests := by
  induction requests generalizing runtime with
  | nil => simp [AllExecuteOwn, runAll, NoCollision]
  | cons request requests ih =>
    rw [allExecuteOwn_cons, NoCollision, run_own_iff, Memo.clearFor_iff]
    refine and_congr_right fun hclear => ?_
    rw [ih, run_source]
    rwa [run_own_iff, Memo.clearFor_iff]

theorem runs_execute_own_bytes_iff (engine : Engine Code) (requests : List RunRequest) :
    AllExecuteOwn (SkillRuntime.new engine) requests ↔ NoCollision engine none requests :=
  allExecuteOwn_iff _ requests

/-! ## Two modules that share a fingerprint -/

/-- An empty component with one custom section, named `x`, that holds `byte`. -/
def customSection (byte : UInt8) : List UInt8 :=
  [0x00, 0x61, 0x73, 0x6d, 0x0d, 0x00, 0x01, 0x00, 0x00, 0x03, 0x01, 0x78, byte]

/-- An engine that takes what starts like a component and prints its code. -/
def preambleEngine : Engine (List UInt8) where
  compile bytes :=
    if bytes.take 8 = [0x00, 0x61, 0x73, 0x6d, 0x0d, 0x00, 0x01, 0x00] then .ok bytes
    else .error "not a component"
  invoke code _ _ := .ok ⟨"ok", none, [], none, some (reprStr code)⟩

def customRequest (byte : UInt8) : RunRequest :=
  ⟨customSection byte, ["sys.info.read"], "null", none, none, none⟩

theorem fingerprint_customSection (a b : UInt8) :
    fingerprint (customSection a) = fingerprint (customSection b) := by
  refine fingerprint_eq_of_sampled rfl fun i hi => ?_
  rcases Nat.lt_or_ge i 12 with h | h
  · obtain rfl : i = 0 := by omega
    rfl
  · rw [List.getElem?_eq_none, List.getElem?_eq_none] <;> simp [customSection] <;> omega

theorem second_run_executes_first_bytes :
    ¬ AllExecuteOwn (SkillRuntime.new preambleEngine)
      [customRequest 0x41, customRequest 0x42] := by
  rw [allExecuteOwn_iff]
  intro h
  have hne := h.2.1 (by decide) (customSection 0x41) (by decide)
    (fingerprint_customSection 0x41 0x42)
  exact absurd hne (by decide)

end Novbot.Runtime
