import Novbot.Probe.Outcome

/-!
# Listening ports

`probe_compliance_listening_ports` compares the entries of `expect_absent` with the ports in state
LISTEN of two tables of the kernel.  It cuts an entry to 16 bits before it looks, so an entry
above the ports stands for the port that it is congruent to (`ports_exact_iff`).
-/

namespace Novbot.Probe

open Text

/-! ## Tables -/

def hexDigit (c : Char) : Option Nat :=
  if isAsciiDigit c then some (c.toNat - '0'.toNat)
  else
    let c := toAsciiLowercase c
    if 'a' ≤ c ∧ c ≤ 'f' then some (c.toNat - 'a'.toNat + 10) else none

def hexDigits (value : Nat) : List Char → Option Nat
  | [] => some value
  | c :: cs => (hexDigit c).bind fun digit => hexDigits (value * 16 + digit) cs

/-- `u16::from_str_radix` in base 16. -/
def parseHexU16 (cs : List Char) : Option Nat :=
  let unsigned :=
    match cs with
    | '+' :: cs => cs
    | cs => cs
  if unsigned = [] then none else (hexDigits 0 unsigned).filter (· < 2 ^ 16)

/-- `rsplit_once`. -/
def rsplitOnce (sep : Char) (cs : List Char) : Option (List Char × List Char) :=
  (splitOnce sep cs.reverse).map fun (after, before) => (before.reverse, after.reverse)

/-- The port of a line in state LISTEN. -/
def listenPort (line : List Char) : Option Nat :=
  match words line with
  | _ :: address :: _ :: state :: _ =>
    if eqIgnoreCase state "0A".toList then
      (rsplitOnce ':' address).bind fun (_, port) => parseHexU16 port
    else none
  | _ => none

def parseProcNetTcpListenPorts (text : String) : List Nat :=
  (lines text.toList).tail.filterMap listenPort

def procTables : List String := ["/proc/net/tcp", "/proc/net/tcp6"]

def tablePorts (files : Files) (path : String) : List Nat :=
  match files.readToString path with
  | .ok text => parseProcNetTcpListenPorts text
  | .error _ => []

def parseAllListenContains (files : Files) (port : Nat) : Bool :=
  procTables.any fun path => (tablePorts files path).contains port

/-! ## The probe -/

def addPort (ports : List Nat) (port : Nat) : List Nat :=
  if ports.contains port then ports else ports ++ [port]

/-- The ports of both tables, each once. -/
def allPorts (files : Files) : List Nat :=
  procTables.foldl (fun ports path => (tablePorts files path).foldl addPort ports) []

def maxSample (spec : Config.Spec) : Nat := max 1 (min 256 (natParam spec "max_sample" 32))

def samplePorts (files : Files) (spec : Config.Spec) : List Nat :=
  ((allPorts files).mergeSort (· ≤ ·)).take (maxSample spec)

def portFinding (port : Nat) : String := "port " ++ toString port ++ " is listening but expect_absent"

/-- What an entry of `expect_absent` is found to be: `as u16` drops its high bits. -/
def absentFinding (files : Files) (spec : Config.Spec) (entry : Json) : Option String :=
  (asU64 entry).bind fun n =>
    let port := n % 2 ^ 16
    if (samplePorts files spec).contains port || parseAllListenContains files port then
      some (portFinding port)
    else none

def portFindings (files : Files) (spec : Config.Spec) : List String :=
  (((spec.params.get "expect_absent").bind Json.asArray).getD []).filterMap (absentFinding files spec)

def probeComplianceListeningPorts (files : Files) (spec : Config.Spec) : ProbeOutcome :=
  let findings := portFindings files spec
  let passed := findings.isEmpty
  ⟨passStatus passed, .obj [("check", .str "compliance_listening_ports"),
    ("findings", strings findings), ("listen_port_count", .int (allPorts files).length),
    ("passed", .bool passed),
    ("sample_ports", .arr ((samplePorts files spec).map fun port => .int port))]⟩

/-! ## Listening -/

def naturals (entries : List Nat) : Json := .arr (entries.map fun n : Nat => .int n)

/-- A line of a table: a port, as the hexadecimal digits after the last colon of the local
address, in state `0A`. -/
def ListensOn (line : List Char) (port : Nat) : Prop :=
  ∃ slot ip hex remote state rest,
    words line = slot :: (ip ++ ':' :: hex) :: remote :: state :: rest ∧ ':' ∉ hex ∧
      eqIgnoreCase state "0A".toList = true ∧ parseHexU16 hex = some port

/-- A port in state LISTEN of one of the tables.  The first line of a table is its heading. -/
def Listening (files : Files) (port : Nat) : Prop :=
  ∃ path ∈ procTables, ∃ text, files.readToString path = .ok text ∧
    ∃ line ∈ (lines text.toList).tail, ListensOn line port

section

variable {files : Files} {spec : Config.Spec}

theorem rsplitOnce_some {sep : Char} {cs before after : List Char} :
    rsplitOnce sep cs = some (before, after) ↔ cs = before ++ sep :: after ∧ sep ∉ after := by
  unfold rsplitOnce
  constructor
  · intro h
    obtain ⟨⟨after', before'⟩, hsplit, h⟩ := Option.map_eq_some_iff.mp h
    cases h
    obtain ⟨hcs, hmem⟩ := splitOnce_some.mp hsplit
    refine ⟨?_, fun hmem' => hmem (List.mem_reverse.mp hmem')⟩
    rw [← List.reverse_reverse cs, hcs]
    simp
  · rintro ⟨rfl, hmem⟩
    refine Option.map_eq_some_iff.mpr ⟨(after.reverse, before.reverse), splitOnce_some.mpr ⟨?_, ?_⟩, ?_⟩
    · simp
    · exact fun hmem' => hmem (List.mem_reverse.mp hmem')
    · simp

theorem listenPort_eq_some_iff {line : List Char} {port : Nat} :
    listenPort line = some port ↔ ListensOn line port := by
  unfold listenPort
  constructor
  · intro h
    split at h
    · next slot address remote state rest hwords =>
      split at h
      · next hstate =>
        obtain ⟨⟨ip, hex⟩, hsplit, hport⟩ := Option.bind_eq_some_iff.mp h
        obtain ⟨rfl, hmem⟩ := rsplitOnce_some.mp hsplit
        exact ⟨slot, ip, hex, remote, state, rest, hwords, hmem, hstate, hport⟩
      · cases h
    · cases h
  · rintro ⟨slot, ip, hex, remote, state, rest, hwords, hmem, hstate, hport⟩
    rw [hwords]
    dsimp only
    rw [if_pos hstate, rsplitOnce_some.mpr ⟨rfl, hmem⟩]
    exact hport

theorem mem_tablePorts {path : String} {port : Nat} :
    port ∈ tablePorts files path ↔ ∃ text, files.readToString path = .ok text ∧
      ∃ line ∈ (lines text.toList).tail, ListensOn line port := by
  unfold tablePorts
  cases files.readToString path with
  | error err => simp
  | ok text =>
    show port ∈ parseProcNetTcpListenPorts text ↔ _
    simp only [parseProcNetTcpListenPorts, List.mem_filterMap, listenPort_eq_some_iff,
      Except.ok.injEq, exists_eq_left']

theorem listening_iff {port : Nat} :
    Listening files port ↔ ∃ path ∈ procTables, port ∈ tablePorts files path := by
  simp only [mem_tablePorts, Listening]

theorem parseAllListenContains_iff {port : Nat} :
    parseAllListenContains files port = true ↔ Listening files port := by
  rw [listening_iff, parseAllListenContains, List.any_eq_true]
  simp only [List.contains_iff_mem]

instance (port : Nat) : Decidable (Listening files port) :=
  decidable_of_iff _ parseAllListenContains_iff

/-- A port is a number of 16 bits. -/
theorem lt_of_listening {port : Nat} (h : Listening files port) : port < 2 ^ 16 := by
  obtain ⟨path, -, text, -, line, -, slot, ip, hex, remote, state, rest, -, -, -, hport⟩ := h
  unfold parseHexU16 at hport
  dsimp only at hport
  generalize hunsigned : (match hex with | '+' :: cs => cs | cs => cs) = unsigned at hport
  split at hport
  · cases hport
  · exact of_decide_eq_true (Option.filter_eq_some_iff.mp hport).2

theorem mem_addPorts {found ports : List Nat} {port : Nat} :
    port ∈ found.foldl addPort ports ↔ port ∈ ports ∨ port ∈ found := by
  induction found generalizing ports with
  | nil => simp
  | cons first found ih =>
    have hadd : port ∈ addPort ports first ↔ port ∈ ports ∨ port = first := by
      unfold addPort
      split
      · next hcontains =>
        refine ⟨.inl, fun h => ?_⟩
        rcases h with h | rfl
        · exact h
        · exact List.contains_iff_mem.mp hcontains
      · rw [List.mem_append, List.mem_singleton]
    rw [List.foldl_cons, ih, hadd, List.mem_cons, or_assoc]

theorem mem_allPorts {port : Nat} : port ∈ allPorts files ↔ Listening files port := by
  rw [listening_iff]
  simp [allPorts, procTables, mem_addPorts]

theorem absentFinding_of_nat {n : Nat} :
    absentFinding files spec (.int n) =
      if n < 2 ^ 64 ∧ Listening files (n % 2 ^ 16) then some (portFinding (n % 2 ^ 16)) else none := by
  have hsampled : (samplePorts files spec).contains (n % 2 ^ 16) = true → Listening files (n % 2 ^ 16) := by
    intro h
    have hmem := List.mem_of_mem_take (List.contains_iff_mem.mp h)
    exact mem_allPorts.mp (List.mem_mergeSort.mp hmem)
  rw [absentFinding, asU64_nat]
  by_cases hsmall : n < 2 ^ 64
  · rw [if_pos hsmall, Option.bind_some]
    dsimp only
    refine if_congr ?_ rfl rfl
    rw [Bool.or_eq_true, parseAllListenContains_iff, and_iff_right hsmall]
    exact ⟨fun h => h.elim hsampled id, .inr⟩
  · rw [if_neg hsmall, if_neg fun h => hsmall h.1]
    rfl

end

/-! ## What passes -/

/-- The probe passes when no entry is a listening port, and reports each entry that is. -/
structure PortsExact (files : Files) (spec : Config.Spec) (entries : List Nat) : Prop where
  passes : (probeComplianceListeningPorts files spec).status = "ok" ↔
    ∀ n ∈ entries, ¬ Listening files n
  findings : (probeComplianceListeningPorts files spec).payload.get "findings" =
    some (strings ((entries.filter fun n => Listening files n).map portFinding))

/-- An entry that is no port stands for one that listens. -/
def Aliased (files : Files) (n : Nat) : Prop :=
  2 ^ 16 ≤ n ∧ n < 2 ^ 64 ∧ Listening files (n % 2 ^ 16)

section

variable {files : Files} {spec : Config.Spec} {entries : List Nat}

theorem portFindings_eq
    (h : spec.params.get "expect_absent" = some (naturals entries)) :
    portFindings files spec =
      (entries.filter fun n => n < 2 ^ 64 ∧ Listening files (n % 2 ^ 16)).map
        fun n => portFinding (n % 2 ^ 16) := by
  rw [portFindings, h]
  show (entries.map fun n : Nat => Json.int n).filterMap _ = _
  rw [List.filterMap_map, ← List.filterMap_eq_map, List.filterMap_filter]
  refine List.filterMap_congr fun n _ => ?_
  rw [Function.comp_apply, absentFinding_of_nat]
  by_cases hn : n < 2 ^ 64 ∧ Listening files (n % 2 ^ 16)
  · rw [if_pos hn, if_pos (decide_eq_true hn), Function.comp_apply]
  · rw [if_neg hn, if_neg (by simpa using hn)]

/-- The probe is right about a list exactly when no entry of it is aliased. -/
theorem ports_exact_iff
    (h : spec.params.get "expect_absent" = some (naturals entries)) :
    PortsExact files spec entries ↔ ∀ n ∈ entries, ¬ Aliased files n := by
  have hfindings := @portFindings_eq files spec entries h
  have hport : ∀ n, Listening files n → n < 2 ^ 64 ∧ Listening files (n % 2 ^ 16) := by
    intro n hn
    have hlt := lt_of_listening hn
    rw [Nat.mod_eq_of_lt hlt]
    exact ⟨by omega, hn⟩
  constructor
  · rintro ⟨-, hreported⟩ n hn ⟨hge, hlt, hlistening⟩
    have hsame : portFindings files spec =
        (entries.filter fun n => Listening files n).map portFinding :=
      strings_inj.mp (Option.some.inj hreported)
    have hlength := congrArg List.length (hfindings.symm.trans hsame)
    rw [List.length_map, List.length_map] at hlength
    -- no entry is reported but those that listen themselves
    have hfilter : (entries.filter fun n => n < 2 ^ 64 ∧ Listening files (n % 2 ^ 16)).filter
        (fun n => Listening files n) = entries.filter fun n => Listening files n := by
      rw [List.filter_filter]
      refine List.filter_congr fun n _ => ?_
      rw [Bool.and_eq_left_iff_imp]
      exact fun hn => decide_eq_true (hport n (of_decide_eq_true hn))
    rw [← hfilter] at hlength
    have hall := List.length_filter_eq_length_iff.mp hlength.symm n
      (List.mem_filter.mpr ⟨hn, decide_eq_true ⟨hlt, hlistening⟩⟩)
    exact absurd (lt_of_listening (of_decide_eq_true hall)) (by omega)
  · intro hnone
    have hsmall : ∀ n ∈ entries, n < 2 ^ 64 → Listening files (n % 2 ^ 16) → n < 2 ^ 16 := by
      intro n hn hlt hlistening
      by_contra hge
      exact hnone n hn ⟨not_lt.mp hge, hlt, hlistening⟩
    have hsame : portFindings files spec =
        (entries.filter fun n => Listening files n).map portFinding := by
      rw [hfindings]
      have hfilter : (entries.filter fun n => n < 2 ^ 64 ∧ Listening files (n % 2 ^ 16)) =
          entries.filter fun n => Listening files n := by
        refine List.filter_congr fun n hn => decide_eq_decide.mpr ⟨fun hboth => ?_, hport n⟩
        have hlt := hsmall n hn hboth.1 hboth.2
        rw [← Nat.mod_eq_of_lt hlt]
        exact hboth.2
      rw [hfilter]
      refine List.map_congr_left fun n hn => ?_
      rw [Nat.mod_eq_of_lt (lt_of_listening (of_decide_eq_true (List.mem_filter.mp hn).2))]
    constructor
    case passes =>
      show passStatus (portFindings files spec).isEmpty = "ok" ↔ _
      rw [passStatus_eq_ok, List.isEmpty_iff, hsame, List.map_eq_nil_iff, List.filter_eq_nil_iff]
      simp only [decide_eq_true_eq]
    case findings =>
      rw [← hsame]
      rfl

end

/-! ### An alias -/

/-- A node that listens on port 22. -/
def sshFiles : Files where
  present path := procTables.contains path
  readToString path :=
    if path = "/proc/net/tcp" then
      .ok "  sl  local_address rem_address   st\n   0: 00000000:0016 00000000:0000 0A\n"
    else .error "No such file or directory"

/-- No entry of the list may listen. -/
def portsSpec (entries : List Nat) : Config.Spec :=
  ⟨"ports", .complianceListeningPorts, .obj [("expect_absent", naturals entries)], none⟩

theorem ports_exact_iff_ssh :
    PortsExact sshFiles (portsSpec [22, 23]) [22, 23] ↔ ∀ n ∈ [22, 23], ¬ Aliased sshFiles n :=
  ports_exact_iff rfl

/-- 65558 is no port, and the probe fails because 22 listens. -/
theorem alias_reported :
    ¬ ∀ files spec entries, spec.params.get "expect_absent" =
      some (naturals entries) → PortsExact files spec entries := by
  intro hall
  have hexact := hall sshFiles (portsSpec [65558]) [65558] rfl
  have hlistening : Listening sshFiles 22 := by decide +kernel
  have hother : ∀ n ∈ [65558], ¬ Listening sshFiles n := by
    intro n hn hlistening
    cases List.mem_singleton.mp hn
    exact absurd (lt_of_listening hlistening) (by decide)
  have hfindings : portFindings sshFiles (portsSpec [65558]) = [] :=
    List.isEmpty_iff.mp (passStatus_eq_ok.mp (hexact.passes.mpr hother))
  rw [@portFindings_eq sshFiles (portsSpec [65558]) [65558] rfl, List.map_eq_nil_iff,
    List.filter_eq_nil_iff] at hfindings
  exact hfindings 65558 (List.mem_singleton_self _) (decide_eq_true ⟨by decide, hlistening⟩)

end Novbot.Probe
