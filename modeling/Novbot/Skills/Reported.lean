import Novbot.Lib.JsonObject
import Novbot.Lib.Text
import Novbot.Runtime.Host

/-!
# Reported runs

`map_run_output` of `novbot-node/src/skills/mod.rs` makes the payload of a result from the
output of a run: the identity of the skill and the recorded denials come from the node,
the rest from a guest that may print anything.  `store_reported_result` of
`novbot-center/src/skill_desired.rs` stores the result and reads the payload again, to
append an audit event for its denials.

`reported_faithful_iff` says when identity and denials arrive.  No guest output forges
them, but two of them lose the report or its event: a message that is cut inside a
character, where the slice panics, and a partial output that nests as deep as the JSON
reader allows, so that the payload around it nests too deep for the center.
-/

namespace Novbot.Skills

open Text
open Novbot.Runtime (Denial DenialReason RunOutput)
open Json (object ReadsBack)

/-! ## The node -/

/-- What the node knows of an installed skill. -/
structure Identity where
  name : String
  version : String
  sha256 : String
  deriving DecidableEq, Repr

def Identity.json (identity : Identity) : Json :=
  .obj [("name", .str identity.name), ("sha256", .str identity.sha256),
    ("version", .str identity.version)]

def reasonText : DenialReason → String
  | .undeclaredCapability => "undeclared_capability"
  | .outOfScope => "out_of_scope"
  | .capDisabled => "cap_disabled"
  | .policyDenied => "policy_denied"

def denialJson (denial : Denial) : Json :=
  .obj [("at_ms", .int denial.atMs.toNat), ("capability", .str denial.capability),
    ("reason", .str (reasonText denial.reason)), ("target", .str denial.target)]

def denialsJson (denials : List Denial) : Json := .arr (denials.map denialJson)

def errorJson (code message : String) : Json :=
  .obj [("code", .str code), ("message", .str message)]

/-- `text[..n]` in bytes.  `none` is the panic at an index that is not between two
characters. -/
def sliceTo : List Char → Nat → Option (List Char)
  | [], n => if n = 0 then some [] else none
  | c :: cs, n =>
    if n = 0 then some []
    else if (utf8 [c]).length ≤ n then (sliceTo cs (n - (utf8 [c]).length)).map (c :: ·)
    else none

def maxMessage : Nat := 512

def clipMessage (message : String) : Option String :=
  if (utf8 message.toList).length ≤ maxMessage then some message
  else (sliceTo message.toList maxMessage).map String.ofList

/-- A message that `clip_message` does not cut inside a character. -/
def Clips (message : String) : Prop :=
  (utf8 message.toList).length ≤ maxMessage ∨
    ∃ head, head <+: message.toList ∧ (utf8 head).length = maxMessage

theorem sliceTo_isSome_iff {cs : List Char} {n : Nat} :
    (sliceTo cs n).isSome = true ↔ ∃ head, head <+: cs ∧ (utf8 head).length = n := by
  induction cs generalizing n with
  | nil =>
    rw [sliceTo]
    split
    · next hn =>
      subst hn
      exact ⟨fun _ => ⟨[], List.prefix_refl _, rfl⟩, fun _ => rfl⟩
    · next hn =>
      constructor
      · intro h
        cases h
      · rintro ⟨head, hinitial, hlen⟩
        rw [List.prefix_nil] at hinitial
        subst hinitial
        exact absurd hlen.symm hn
  | cons c cs ih =>
    have hcons : ∀ head, (utf8 (c :: head)).length = (utf8 [c]).length + (utf8 head).length := by
      intro head
      simp [utf8]
    have hwidth : 0 < (utf8 [c]).length := by
      simpa [utf8] using c.utf8Size_pos
    rw [sliceTo]
    split
    · next hn =>
      subst hn
      exact ⟨fun _ => ⟨[], List.nil_prefix, rfl⟩, fun _ => rfl⟩
    · next hn =>
      have hhead : (∃ head, head <+: c :: cs ∧ (utf8 head).length = n) ↔
          ∃ head, head <+: cs ∧ (utf8 [c]).length + (utf8 head).length = n := by
        constructor
        · rintro ⟨head, hinitial, hlen⟩
          cases head with
          | nil => exact absurd hlen.symm hn
          | cons d head =>
            obtain ⟨rfl, htail⟩ := List.cons_prefix_cons.mp hinitial
            exact ⟨head, htail, hcons head ▸ hlen⟩
        · rintro ⟨head, hinitial, hlen⟩
          exact ⟨c :: head, List.cons_prefix_cons.mpr ⟨rfl, hinitial⟩, (hcons head).trans hlen⟩
      rw [hhead]
      split
      · next hle =>
        rw [Option.isSome_map, ih]
        constructor
        · rintro ⟨head, hinitial, hlen⟩
          exact ⟨head, hinitial, by omega⟩
        · rintro ⟨head, hinitial, hlen⟩
          exact ⟨head, hinitial, by omega⟩
      · next hlt =>
        constructor
        · intro h
          cases h
        · rintro ⟨head, -, hlen⟩
          omega

theorem clipMessage_isSome_iff {message : String} :
    (clipMessage message).isSome = true ↔ Clips message := by
  unfold clipMessage
  split
  · next hle => exact ⟨fun _ => .inl hle, fun _ => rfl⟩
  · next hgt =>
    rw [Option.isSome_map, sliceTo_isSome_iff]
    exact ⟨.inr, fun h => h.resolve_left hgt⟩

def mapRunCode (code : String) : String :=
  if code = "guest_error" then "skill_error"
  else if code = "guest_trap" then "skill_trap"
  else code

section
variable (codec : Json.Codec)

def jsonOrString (text : String) : Json := (codec.parse text).getD (.str text)

/-- The members that a guest cannot set. -/
def hostKeys : List String := ["skill", "error", "denials", "partial"]

/-- One round of the loop of `merge_guest_output`. -/
def mergeMember (dest : SortedMap String Json) (member : String × Json) : SortedMap String Json :=
  if member.1 ∈ hostKeys then dest else dest.insert member.1 member.2

def mergeGuestOutput (payload : SortedMap String Json) (text : String) : SortedMap String Json :=
  match codec.parse text with
  | none => payload.insert "output" (.str text)
  | some (.obj members) => members.foldl mergeMember payload
  | some value => payload.insert "output" value

def findingsHaveFail (payload : SortedMap String Json) : Bool :=
  match payload.lookup "findings" with
  | some (.arr items) => items.any fun item => (item.get "status").bind Json.asStr == some "fail"
  | _ => false

/-- The message of a run with denials. -/
def deniedMessage (output : RunOutput) : Option String :=
  match output.error with
  | some err => clipMessage err.message
  | none => some "host call was outside the skill's declared capabilities"

/-- The status and the payload of a result.  `none` is a panic. -/
def mapRunOutput (identity : Identity) (output : RunOutput) :
    Option (String × SortedMap String Json) :=
  let payload := SortedMap.empty.insert "skill" identity.json
  if output.denials ≠ [] then do
    let message ← deniedMessage output
    let payload := payload.insert "error" (errorJson "capability_denied" message)
    let payload := payload.insert "denials" (denialsJson output.denials)
    let payload := match output.partialOutput with
      | some text => payload.insert "partial" (jsonOrString codec text)
      | none => payload
    return ("error", payload)
  else if output.status = "ok" then
    let payload := match output.output with
      | some text => mergeGuestOutput codec payload text
      | none => payload
    some (if findingsHaveFail payload then "fail" else "ok", payload)
  else
    match output.error with
    | some err => do
      let message ← clipMessage err.message
      return ("error", payload.insert "error" (errorJson (mapRunCode err.code) message))
    | none => some ("error", payload.insert "error" (errorJson "skill_trap" "skill run failed"))

/-! ## The center -/

/-- A row of `results`. -/
structure StoredResult where
  nodeId : String
  runId : String
  specId : String
  status : String
  payloadJson : String
  observedAt : Int
  deriving DecidableEq, Repr

/-- A row of `audit_events` that a node causes. -/
structure NodeAudit where
  nodeId : String
  action : String
  targetId : String
  detail : Json

structure ResultTables where
  results : List StoredResult
  audit : List NodeAudit

def identityKeys : List String := ["name", "version", "sha256"]

/-- The members of the payload's `skill` that the detail records. -/
def recordedSkill (payload : Json) : SortedMap String Json :=
  match payload.get "skill" with
  | some (.obj skill) =>
    identityKeys.foldl (fun recorded key =>
      match (Json.obj skill).get key with
      | none | some .null => recorded
      | some value => recorded.insert key value) .empty
  | _ => .empty

/-- The detail of a denial event. -/
def detailJson (runId specId : String) (denials : List Json) (recorded : SortedMap String Json) :
    Json :=
  let detail := SortedMap.empty.insert "run_id" (.str runId)
  let detail := detail.insert "spec_id" (.str specId)
  let detail := detail.insert "denials" (.arr denials)
  object (if recorded.entries = [] then detail else detail.insert "skill" (object recorded))

def denialAuditDetail (runId specId payloadJson : String) : Option (String × Json) := do
  let payload ← codec.parse payloadJson
  let denials ← (payload.get "denials").bind Json.asArray
  if denials.isEmpty then none
  else
    let recorded := recordedSkill payload
    let targetId := match recorded.lookup "name" with
      | some (.str name) => if name = "" then specId else name
      | _ => specId
    return (targetId, detailJson runId specId denials recorded)

def deniedAction : String := "skill.capability_denied"

def denialAlreadyStored (audit : List NodeAudit) (nodeId runId : String) : Bool :=
  audit.any fun event =>
    event.action = deniedAction && event.nodeId = nodeId &&
      (event.detail.get "run_id").bind Json.asStr = some runId

def storeReportedResult (tables : ResultTables) (result : StoredResult) : ResultTables :=
  let tables := { tables with results := tables.results ++ [result] }
  match denialAuditDetail codec result.runId result.specId result.payloadJson with
  | none => tables
  | some (targetId, detail) =>
    if denialAlreadyStored tables.audit result.nodeId result.runId then tables
    else
      { tables with audit := tables.audit ++ [⟨result.nodeId, deniedAction, targetId, detail⟩] }

/-! ## What the node reports -/

variable {codec}

theorem lookup_mergeGuestOutput {key : String} (hkey : key ∈ hostKeys)
    (payload : SortedMap String Json) (text : String) :
    (mergeGuestOutput codec payload text).lookup key = payload.lookup key := by
  have hne : key ≠ "output" := by
    rintro rfl
    revert hkey
    decide
  have hmembers : ∀ members payload,
      (List.foldl mergeMember payload members).lookup key = payload.lookup key := by
    intro members
    induction members with
    | nil => exact fun _ => rfl
    | cons member members ih =>
      intro payload
      rw [List.foldl_cons, ih, mergeMember]
      split
      · rfl
      · next hmember =>
        rw [SortedMap.lookup_insert, if_neg]
        rintro rfl
        exact hmember hkey
  unfold mergeGuestOutput
  split
  · rw [SortedMap.lookup_insert, if_neg hne]
  · exact hmembers _ payload
  · rw [SortedMap.lookup_insert, if_neg hne]

variable {identity : Identity} {output : RunOutput} {status : String}
  {payload : SortedMap String Json}

/-- The payload of a run with denials has four members. -/
theorem mapRunOutput_denied (hdenials : output.denials ≠ [])
    (h : mapRunOutput codec identity output = some (status, payload)) :
    ∃ message, ∀ key, payload.lookup key =
      if key = "partial" then output.partialOutput.map (jsonOrString codec)
      else if key = "denials" then some (denialsJson output.denials)
      else if key = "error" then some (errorJson "capability_denied" message)
      else if key = "skill" then some identity.json
      else none := by
  rw [mapRunOutput, if_pos hdenials] at h
  obtain ⟨message, -, h⟩ := Option.bind_eq_some_iff.mp h
  refine ⟨message, fun key => ?_⟩
  cases h
  cases output.partialOutput with
  | none =>
    simp only [SortedMap.lookup_insert, SortedMap.lookup_empty, Option.map_none]
    by_cases hkey : key = "partial"
    · simp [hkey]
    · rw [if_neg hkey]
  | some text =>
    simp only [SortedMap.lookup_insert, SortedMap.lookup_empty, Option.map_some]

/-- The payload of a run without denials, whatever its guest printed. -/
theorem mapRunOutput_clean (hdenials : output.denials = [])
    (h : mapRunOutput codec identity output = some (status, payload)) :
    payload.lookup "skill" = some identity.json ∧ payload.lookup "denials" = none := by
  rw [mapRunOutput, if_neg (not_not_intro hdenials)] at h
  split at h
  · cases h
    cases output.output with
    | none => simp [SortedMap.lookup_insert]
    | some text =>
      show (mergeGuestOutput codec _ text).lookup "skill" = _ ∧
        (mergeGuestOutput codec _ text).lookup "denials" = _
      rw [lookup_mergeGuestOutput (by decide), lookup_mergeGuestOutput (by decide)]
      simp [SortedMap.lookup_insert]
  · cases herror : output.error with
    | none =>
      rw [herror] at h
      cases h
      simp [SortedMap.lookup_insert]
    | some err =>
      rw [herror] at h
      obtain ⟨message, -, h⟩ := Option.bind_eq_some_iff.mp h
      cases h
      simp [SortedMap.lookup_insert]

/-- A result is reported unless the message of its error is cut inside a character. -/
theorem mapRunOutput_isSome_iff :
    (mapRunOutput codec identity output).isSome = true ↔
      ∀ err, output.error = some err → output.denials ≠ [] ∨ output.status ≠ "ok" →
        Clips err.message := by
  rw [mapRunOutput]
  split
  · next hdenials =>
    rw [deniedMessage]
    cases output.error with
    | none => simp
    | some err =>
      simp only [Option.some.injEq, forall_eq', ← clipMessage_isSome_iff]
      cases clipMessage err.message <;> simp [hdenials]
  · next hdenials =>
    split
    · next hstatus => simp [hdenials, hstatus]
    · next hstatus =>
      cases output.error with
      | none => simp
      | some err =>
        simp only [Option.some.injEq, forall_eq', ← clipMessage_isSome_iff]
        cases clipMessage err.message <;> simp [hstatus]

/-! ## What the center appends -/

theorem depth_denials (denials : List Denial) : (denialsJson denials).depth ≤ 2 := by
  rw [denialsJson, Json.depth_arr_le_iff]
  intro item hitem
  obtain ⟨denial, -, rfl⟩ := List.mem_map.mp hitem
  exact Nat.le_refl 1

/-- The payload of a run with denials nests one level deeper than the partial output. -/
theorem depth_denied {n : Nat} (hdenials : output.denials ≠ [])
    (h : mapRunOutput codec identity output = some (status, payload)) :
    (object payload).depth ≤ n + 3 ↔
      ∀ text, output.partialOutput = some text → (jsonOrString codec text).depth ≤ n + 2 := by
  obtain ⟨message, hlookup⟩ := mapRunOutput_denied hdenials h
  rw [Json.depth_object_le_iff]
  constructor
  · intro hdepth text htext
    refine hdepth "partial" _ ?_
    rw [hlookup, if_pos rfl, htext]
    rfl
  · intro hguests key value hvalue
    rw [hlookup] at hvalue
    split at hvalue
    · obtain ⟨text, htext, rfl⟩ := Option.map_eq_some_iff.mp hvalue
      exact hguests text htext
    · split at hvalue
      · cases hvalue
        exact Nat.le_trans (depth_denials _) (Nat.le_add_left ..)
      · split at hvalue
        · cases hvalue
          exact Nat.le_add_left ..
        · split at hvalue
          · cases hvalue
            exact Nat.le_add_left ..
          · cases hvalue

theorem rounded_denials (round : String → String) (denials : List Denial) :
    (denialsJson denials).rounded round = denialsJson denials := by
  have hitems : Json.roundedItems round (denials.map denialJson) = denials.map denialJson := by
    refine Json.roundedItems_of_fixed round fun item hitem => ?_
    obtain ⟨denial, -, rfl⟩ := List.mem_map.mp hitem
    rfl
  rw [denialsJson, Json.rounded, hitems]

/-- The members of an identity that an event records: all of them. -/
def Identity.recorded (identity : Identity) : SortedMap String Json :=
  ((SortedMap.empty.insert "name" (.str identity.name)).insert "version"
    (.str identity.version)).insert "sha256" (.str identity.sha256)

/-- The audit event of a run with denials. -/
def deniedEvent (result : StoredResult) (identity : Identity) (denials : List Denial) :
    NodeAudit where
  nodeId := result.nodeId
  action := deniedAction
  targetId := if identity.name = "" then result.specId else identity.name
  detail := detailJson result.runId result.specId (denials.map denialJson) identity.recorded

/-- A reported payload without denials causes no event. -/
theorem denialAuditDetail_clean {runId specId text : String}
    (h : ∀ read, codec.parse text = some read → read.get "denials" = none) :
    denialAuditDetail codec runId specId text = none := by
  rw [denialAuditDetail]
  cases hread : codec.parse text with
  | none => rfl
  | some read =>
    show Option.bind ((read.get "denials").bind Json.asArray) _ = none
    rw [h read hread]
    rfl

theorem denialAuditDetail_denied {runId specId text : String} {read : Json}
    {denials : List Denial} (hdenials : denials ≠ []) (hread : codec.parse text = some read)
    (hskill : read.get "skill" = some identity.json)
    (hget : read.get "denials" = some (denialsJson denials)) :
    denialAuditDetail codec runId specId text =
      some (if identity.name = "" then specId else identity.name,
        detailJson runId specId (denials.map denialJson) identity.recorded) := by
  have hrecorded : recordedSkill read = identity.recorded := by
    rw [recordedSkill, hskill]
    rfl
  have hname : identity.recorded.lookup "name" = some (.str identity.name) := by
    simp [Identity.recorded, SortedMap.lookup_insert]
  have hempty : (denials.map denialJson).isEmpty = false := by
    cases denials with
    | nil => exact absurd rfl hdenials
    | cons denial denials => rfl
  rw [denialAuditDetail, hread]
  show Option.bind ((read.get "denials").bind Json.asArray) _ = _
  rw [hget]
  show (if (denials.map denialJson).isEmpty = true then none else _) = _
  rw [hempty, hrecorded, hname]
  rfl

/-- Once a denial event is stored, the same run stores no other. -/
theorem denialAlreadyStored_deniedEvent (audit : List NodeAudit) (result : StoredResult)
    (denials : List Denial) :
    denialAlreadyStored (audit ++ [deniedEvent result identity denials]) result.nodeId
      result.runId = true := by
  have hrun : ((deniedEvent result identity denials).detail.get "run_id").bind Json.asStr =
      some result.runId := by
    show ((detailJson _ _ _ identity.recorded).get "run_id").bind Json.asStr = _
    rw [detailJson]
    split <;> simp [SortedMap.lookup_insert, Json.asStr]
  rw [denialAlreadyStored, List.any_append, Bool.or_eq_true]
  right
  simpa [deniedEvent] using hrun

variable (codec)

/-- A run's result carries the identity of its skill and the recorded denials, and the
center appends one event for them exactly when there are any. -/
def Faithful (identity : Identity) (output : RunOutput) : Prop :=
  ∃ status payload, mapRunOutput codec identity output = some (status, payload) ∧
    payload.lookup "skill" = some identity.json ∧
    payload.lookup "denials" =
      (if output.denials = [] then none else some (denialsJson output.denials)) ∧
    ∀ (tables : ResultTables) (result : StoredResult),
      result.status = status → result.payloadJson = codec.print (object payload) →
      (storeReportedResult codec tables result).audit =
        tables.audit ++
          if output.denials = [] ∨ denialAlreadyStored tables.audit result.nodeId result.runId
          then []
          else [deniedEvent result identity output.denials]

/-- What a JSON reader takes. -/
def maxDepth : Nat := 127

/-- The messages and the partial output that arrive. -/
def Reportable (output : RunOutput) : Prop :=
  (∀ err, output.error = some err → output.denials ≠ [] ∨ output.status ≠ "ok" →
    Clips err.message) ∧
  (output.denials ≠ [] → ∀ text, output.partialOutput = some text →
    (jsonOrString codec text).depth < maxDepth)

variable {codec}

/-- The center reads the payload of a result without denials. -/
theorem audit_clean {round : String → String} (hdenials : output.denials = [])
    (hmade : mapRunOutput codec identity output = some (status, payload))
    (hread : ReadsBack codec round maxDepth (object payload)) (tables : ResultTables)
    {result : StoredResult} (hresult : result.payloadJson = codec.print (object payload)) :
    (storeReportedResult codec tables result).audit = tables.audit := by
  have hclean : denialAuditDetail codec result.runId result.specId result.payloadJson = none :=
    denialAuditDetail_clean fun read hparse => by
      rw [hresult, hread] at hparse
      split at hparse
      · cases hparse
        rw [object, Json.get_rounded_obj, ← object, Json.get_object,
          (mapRunOutput_clean hdenials hmade).2]
        rfl
      · cases hparse
  rw [storeReportedResult, hclean]

/-- The center reads the payload of a result with denials, unless it nests too deep. -/
theorem audit_denied {round : String → String} (hdenials : output.denials ≠ [])
    (hmade : mapRunOutput codec identity output = some (status, payload))
    (hread : ReadsBack codec round maxDepth (object payload)) (tables : ResultTables)
    {result : StoredResult} (hresult : result.payloadJson = codec.print (object payload)) :
    (storeReportedResult codec tables result).audit =
      tables.audit ++
        if (object payload).depth ≤ maxDepth ∧
            ¬ denialAlreadyStored tables.audit result.nodeId result.runId then
          [deniedEvent result identity output.denials]
        else [] := by
  obtain ⟨message, hlookup⟩ := mapRunOutput_denied hdenials hmade
  by_cases hdepth : (object payload).depth ≤ maxDepth
  · rw [ReadsBack, if_pos hdepth, ← hresult] at hread
    have hskill : ((object payload).rounded round).get "skill" = some identity.json := by
      rw [object, Json.get_rounded_obj, ← object, Json.get_object, hlookup]
      rfl
    have hget : ((object payload).rounded round).get "denials" =
        some (denialsJson output.denials) := by
      rw [object, Json.get_rounded_obj, ← object, Json.get_object, hlookup]
      exact congrArg some (rounded_denials round output.denials)
    rw [storeReportedResult, denialAuditDetail_denied hdenials hread hskill hget]
    by_cases hstored : denialAlreadyStored tables.audit result.nodeId result.runId = true
    · simp [hstored]
    · simp [hstored, hdepth, deniedEvent]
  · rw [ReadsBack, if_neg hdepth, ← hresult] at hread
    have hnone : denialAuditDetail codec result.runId result.specId result.payloadJson = none :=
      denialAuditDetail_clean fun read hparse => by
        rw [hread] at hparse
        cases hparse
    rw [storeReportedResult, hnone]
    simp [hdepth]

theorem faithful_iff {round : String → String}
    (hread : ∀ status payload, mapRunOutput codec identity output = some (status, payload) →
      ReadsBack codec round maxDepth (object payload)) :
    Faithful codec identity output ↔ Reportable codec output := by
  constructor
  · rintro ⟨status, payload, hmade, -, -, haudit⟩
    refine ⟨mapRunOutput_isSome_iff.mp (by rw [hmade]; rfl), fun hdenials => ?_⟩
    have hdepth : (object payload).depth ≤ maxDepth := by
      have hone := haudit ⟨[], []⟩ ⟨"", "", "", status, codec.print (object payload), 0⟩ rfl rfl
      rw [audit_denied hdenials hmade (hread status payload hmade) _ rfl] at hone
      by_contra hdeep
      simp [hdeep, hdenials, denialAlreadyStored] at hone
    intro text htext
    exact Nat.lt_succ_of_le ((depth_denied (n := 124) hdenials hmade).mp hdepth text htext)
  · rintro ⟨hclips, hguests⟩
    have hsome : (mapRunOutput codec identity output).isSome = true :=
      mapRunOutput_isSome_iff.mpr hclips
    obtain ⟨⟨status, payload⟩, hmade⟩ := Option.isSome_iff_exists.mp hsome
    refine ⟨status, payload, hmade, ?_⟩
    by_cases hdenials : output.denials = []
    · obtain ⟨hskill, hnone⟩ := mapRunOutput_clean hdenials hmade
      refine ⟨hskill, by rw [hnone, if_pos hdenials], fun tables result _ hresult => ?_⟩
      rw [audit_clean hdenials hmade (hread status payload hmade) tables hresult]
      simp [hdenials]
    · obtain ⟨message, hlookup⟩ := mapRunOutput_denied hdenials hmade
      have hdepth : (object payload).depth ≤ maxDepth :=
        (depth_denied (n := 124) hdenials hmade).mpr fun text htext =>
          Nat.le_of_lt_succ (hguests hdenials text htext)
      refine ⟨by rw [hlookup]; rfl, by rw [hlookup, if_neg hdenials]; rfl, ?_⟩
      intro tables result _ hresult
      rw [audit_denied hdenials hmade (hread status payload hmade) tables hresult]
      by_cases hstored : denialAlreadyStored tables.audit result.nodeId result.runId = true
      · simp [hstored]
      · simp [hstored, hdepth, hdenials]

/-- When identity and denials of a run arrive. -/
theorem reported_faithful_iff (codec : Json.Codec) (round : String → String)
    (identity : Identity) (output : RunOutput)
    (hread : ∀ status payload, mapRunOutput codec identity output = some (status, payload) →
      ReadsBack codec round maxDepth (object payload)) :
    Faithful codec identity output ↔ Reportable codec output :=
  faithful_iff hread

end

/-! ## Runs on fixed inputs -/

def sampleIdentity : Identity := ⟨"disk", "1.0.0", "ab12"⟩

/-- A run that was refused one call and printed a text. -/
def refusedRun (text : String) : RunOutput :=
  .failed "capability_denied" "1 host call denied"
    [⟨"fs.read", "/etc/shadow", .policyDenied, 7⟩] (some text)

/-- The reported payload of `refusedRun`. -/
def refusedPayload (guest : Json) : SortedMap String Json :=
  (((SortedMap.empty.insert "skill" sampleIdentity.json).insert "error"
    (errorJson "capability_denied" "1 host call denied")).insert
      "denials" (denialsJson (refusedRun "").denials)).insert "partial" guest

/-- The printed payload before its partial output. -/
def refusedHead : String :=
  "\x7b\"denials\":[\x7b\"at_ms\":7,\"capability\":\"fs.read\",\"reason\":\"policy_denied\"," ++
    "\"target\":\"/etc/shadow\"\x7d],\"error\":\x7b\"code\":\"capability_denied\"," ++
    "\"message\":\"1 host call denied\"\x7d,\"partial\":"

def refusedTail : String :=
  ",\"skill\":\x7b\"name\":\"disk\",\"sha256\":\"ab12\",\"version\":\"1.0.0\"\x7d\x7d"

def refusedText (guest : String) : String := refusedHead ++ guest ++ refusedTail

theorem refusedText_ne (guest : String) : refusedText guest ≠ guest := by
  intro h
  have hlen := congrArg String.length h
  have htail : 0 < refusedTail.length := by decide +kernel
  rw [refusedText, String.length_append, String.length_append] at hlen
  omega

/-- A reader of one text, and the text that it prints. -/
def textCodec (text : String) (value : Json) (printed : String) : Json.Codec where
  parse input := if input = text then some value else none
  print _ := printed

theorem parse_textCodec (text : String) (value : Json) (printed : String) :
    (textCodec text value printed).parse text = some value := by
  simp [textCodec]

/-- The center reads the payload of a run that printed a text that is not JSON. -/
def plainCodec : Json.Codec :=
  textCodec (refusedText "\"done\"") (object (refusedPayload (.str "done")))
    (refusedText "\"done\"")

theorem reported_plain : Faithful plainCodec sampleIdentity (refusedRun "done") := by
  have hdone : ¬ "done" = refusedText "\"done\"" := by decide +kernel
  have hguest : jsonOrString plainCodec "done" = .str "done" := by
    simp [jsonOrString, plainCodec, textCodec, hdone]
  refine (reported_faithful_iff plainCodec id sampleIdentity (refusedRun "done") ?_).mpr ⟨?_, ?_⟩
  · intro status payload h
    have hshort : (utf8 "1 host call denied".toList).length ≤ maxMessage := by decide +kernel
    have hmessage : deniedMessage (refusedRun "done") = some "1 host call denied" := by
      simp only [deniedMessage, refusedRun, RunOutput.failed, clipMessage, if_pos hshort]
    have hmade : mapRunOutput plainCodec sampleIdentity (refusedRun "done") =
        some ("error", refusedPayload (jsonOrString plainCodec "done")) := by
      rw [mapRunOutput, if_pos (by decide), hmessage]
      rfl
    rw [hmade, hguest] at h
    cases h
    have hdepth : (object (refusedPayload (.str "done"))).depth ≤ maxDepth := by decide +kernel
    rw [ReadsBack, if_pos hdepth, Json.rounded_id]
    exact parse_textCodec (refusedText "\"done\"") _ _
  · rintro err herr -
    cases herr
    left
    decide +kernel
  · intro _ text htext
    cases htext
    rw [hguest]
    decide

/-- Arrays within arrays. -/
def nested : Nat → Json
  | 0 => .arr []
  | n + 1 => .arr [nested n]

def nestedText (n : Nat) : String :=
  .ofList (List.replicate (n + 1) '[' ++ List.replicate (n + 1) ']')

theorem depth_nested (n : Nat) : (nested n).depth = n + 1 := by
  induction n with
  | zero => rfl
  | succ n ih => simp [nested, Json.depth, Json.depthItems, ih]

/-- A reader that takes a guest's text as 127 arrays, and not the payload around it. -/
def deepCodec (guest : String) : Json.Codec := textCodec guest (nested 126) (refusedText guest)

theorem not_faithful_deep (guest : String) :
    ¬ Faithful (deepCodec guest) sampleIdentity (refusedRun guest) := by
  have hguest : (jsonOrString (deepCodec guest) guest).depth = maxDepth := by
    rw [deepCodec, jsonOrString, parse_textCodec, Option.getD_some, depth_nested]
    rfl
  have hdenials : (refusedRun guest).denials ≠ [] := List.cons_ne_nil _ _
  refine mt (@faithful_iff _ _ _ id ?_).mp ?_
  · intro status payload h
    have hdeep : ¬ (object payload).depth ≤ maxDepth := by
      intro hdepth
      have hle := (depth_denied (n := 124) hdenials h).mp hdepth guest rfl
      rw [hguest] at hle
      exact absurd hle (by decide)
    rw [ReadsBack, if_neg hdeep]
    exact if_neg (refusedText_ne guest)
  · rintro ⟨-, hguests⟩
    exact absurd hguest (Nat.ne_of_lt (hguests hdenials guest rfl))

theorem denials_not_audited :
    ¬ Faithful (deepCodec (nestedText 126)) sampleIdentity (refusedRun (nestedText 126)) :=
  not_faithful_deep (nestedText 126)

end Novbot.Skills
