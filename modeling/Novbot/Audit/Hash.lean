import Novbot.Lib.JsonPrint
import Novbot.Lib.Lines
import Novbot.Lib.Utf8

/-!
# What an audit event hashes

`audit_hash` of `skill_desired.rs` and of `tags.rs`, and the same format in `audit_event` of
`targets.rs`: the hash of the event before, the action, the target and the detail, a line feed
between them.  Only the target can hold a line feed of its own, so that the first two and the last
one tell the fields apart (`hashInput_inj`).
-/

namespace Novbot.Audit

open Text

/-- The actions of the writers. -/
inductive Action where
  | skillInstall
  | skillUpgrade
  | skillRollback
  | skillUninstall
  | skillInstalled
  | skillFailed
  | skillCapabilityDenied
  | tagNodeReportedChanged
  | tagSet
  | tagRemoved
  | tagBulkApplied
  | targetResolved
  | targetRefused
  | dispatchRequested
  | scheduleCreated
  | scheduleUpdated
  | scheduleDeleted
  | scheduleReResolved
  deriving DecidableEq, Repr

def Action.name : Action → String
  | .skillInstall => "skill.install"
  | .skillUpgrade => "skill.upgrade"
  | .skillRollback => "skill.rollback"
  | .skillUninstall => "skill.uninstall"
  | .skillInstalled => "skill.installed"
  | .skillFailed => "skill.failed"
  | .skillCapabilityDenied => "skill.capability_denied"
  | .tagNodeReportedChanged => "tag.node_reported_changed"
  | .tagSet => "tag.set"
  | .tagRemoved => "tag.removed"
  | .tagBulkApplied => "tag.bulk_applied"
  | .targetResolved => "target.resolved"
  | .targetRefused => "target.refused"
  | .dispatchRequested => "dispatch.requested"
  | .scheduleCreated => "schedule.created"
  | .scheduleUpdated => "schedule.updated"
  | .scheduleDeleted => "schedule.deleted"
  | .scheduleReResolved => "schedule.re_resolved"

/-- `format!("{prev}\n{action}\n{target_id}\n{detail}")`. -/
def material (prev action targetId detail : List Char) : List Char :=
  prev ++ '\n' :: (action ++ '\n' :: (targetId ++ '\n' :: detail))

/-- The input of `sha256_hex`. -/
def auditInput (prev action targetId detail : String) : List UInt8 :=
  utf8 (material prev.toList action.toList targetId.toList detail.toList)

/-- A digit of `sha256_hex`. -/
def isHex (c : Char) : Bool := isAsciiDigit c || ('a' ≤ c && c ≤ 'f')

/-- A hash, or the empty text in front of the first event. -/
def IsHash (text : String) : Prop := ∀ c ∈ text.toList, isHex c = true

/-- What a writer appends, and the hash that it found. -/
structure Event where
  prevHash : String
  action : Action
  targetId : String
  detail : Json
  hashed : IsHash prevHash
  spelled : detail.spelled = true

/-- `serde_json::to_string` of the detail. -/
def Event.detailJson (event : Event) : String := .ofList event.detail.compact

def Event.hashInput (event : Event) : List UInt8 :=
  auditInput event.prevHash event.action.name event.targetId event.detailJson

/-! ## The fields of the input -/

/-- A text in front of the first separator is found again. -/
theorem append_sep_inj {sep : Char} {before before' after after' : List Char} (h : sep ∉ before)
    (h' : sep ∉ before') (heq : before ++ sep :: after = before' ++ sep :: after') :
    before = before' ∧ after = after' := by
  have hsplit : splitOnce sep (before ++ sep :: after) = some (before, after) :=
    splitOnce_some.mpr ⟨rfl, h⟩
  rw [heq, splitOnce_some.mpr ⟨rfl, h'⟩] at hsplit
  cases hsplit
  exact ⟨rfl, rfl⟩

/-- So is a text behind the last one. -/
theorem sep_append_inj {sep : Char} {before before' after after' : List Char} (h : sep ∉ after)
    (h' : sep ∉ after') (heq : before ++ sep :: after = before' ++ sep :: after') :
    before = before' ∧ after = after' := by
  have hreverse : after.reverse ++ sep :: before.reverse = after'.reverse ++ sep :: before'.reverse := by
    have hrev := congrArg List.reverse heq
    simpa [List.reverse_append] using hrev
  obtain ⟨hafter, hbefore⟩ := append_sep_inj (mt List.mem_reverse.mp h) (mt List.mem_reverse.mp h')
    hreverse
  exact ⟨List.reverse_injective hbefore, List.reverse_injective hafter⟩

/-- Texts on one line around any text. -/
theorem material_inj {prev prev' action action' targetId targetId' detail detail' : List Char}
    (hprev : '\n' ∉ prev) (hprev' : '\n' ∉ prev') (haction : '\n' ∉ action)
    (haction' : '\n' ∉ action') (hdetail : '\n' ∉ detail) (hdetail' : '\n' ∉ detail')
    (h : material prev action targetId detail = material prev' action' targetId' detail') :
    prev = prev' ∧ action = action' ∧ targetId = targetId' ∧ detail = detail' := by
  obtain ⟨hprevs, hrest⟩ := append_sep_inj hprev hprev' h
  obtain ⟨hactions, hrest⟩ := append_sep_inj haction haction' hrest
  obtain ⟨htargets, hdetails⟩ := sep_append_inj hdetail hdetail' hrest
  exact ⟨hprevs, hactions, htargets, hdetails⟩

theorem IsHash.no_newline {text : String} (h : IsHash text) : '\n' ∉ text.toList := by
  intro hmem
  exact absurd (h _ hmem) (by decide)

theorem Action.no_newline (action : Action) : '\n' ∉ action.name.toList := by
  cases action <;> decide

theorem Event.detail_no_newline (event : Event) : '\n' ∉ event.detailJson.toList := by
  rw [detailJson, String.toList_ofList]
  exact (Json.visible_compact _ event.spelled).no_newline

/-- Two events with one hash input agree in every field that is hashed. -/
theorem hashInput_inj {event other : Event} :
    event.hashInput = other.hashInput ↔
      event.prevHash = other.prevHash ∧ event.action.name = other.action.name ∧
        event.targetId = other.targetId ∧ event.detailJson = other.detailJson := by
  constructor
  · intro h
    obtain ⟨hprev, haction, htarget, hdetail⟩ := material_inj event.hashed.no_newline
      other.hashed.no_newline event.action.no_newline other.action.no_newline
      event.detail_no_newline other.detail_no_newline (utf8_inj.mp h)
    exact ⟨String.toList_inj.mp hprev, String.toList_inj.mp haction, String.toList_inj.mp htarget,
      String.toList_inj.mp hdetail⟩
  · rintro ⟨hprev, haction, htarget, hdetail⟩
    rw [Event.hashInput, Event.hashInput, hprev, haction, htarget, hdetail]

/-- The input of an event determines the four fields among all events that a writer can append, and
no field of it can be altered alone, to any text. -/
theorem hashInput_determines (event : Event) :
    (∀ other : Event, event.hashInput = other.hashInput ↔
      event.prevHash = other.prevHash ∧ event.action.name = other.action.name ∧
        event.targetId = other.targetId ∧ event.detailJson = other.detailJson) ∧
    ∀ altered : String,
      (auditInput altered event.action.name event.targetId event.detailJson = event.hashInput ↔
        altered = event.prevHash) ∧
      (auditInput event.prevHash altered event.targetId event.detailJson = event.hashInput ↔
        altered = event.action.name) ∧
      (auditInput event.prevHash event.action.name altered event.detailJson = event.hashInput ↔
        altered = event.targetId) ∧
      (auditInput event.prevHash event.action.name event.targetId altered = event.hashInput ↔
        altered = event.detailJson) := by
  refine ⟨fun other => hashInput_inj, fun altered => ⟨⟨?_, ?_⟩, ⟨?_, ?_⟩, ⟨?_, ?_⟩, ⟨?_, ?_⟩⟩⟩
  · intro h
    exact String.toList_inj.mp (List.append_cancel_right (utf8_inj.mp h))
  · rintro rfl
    rfl
  · intro h
    have htail := (List.cons.inj (List.append_cancel_left (utf8_inj.mp h))).2
    exact String.toList_inj.mp (List.append_cancel_right htail)
  · rintro rfl
    rfl
  · intro h
    have htail := (List.cons.inj (List.append_cancel_left (utf8_inj.mp h))).2
    have htarget := (List.cons.inj (List.append_cancel_left htail)).2
    exact String.toList_inj.mp (List.append_cancel_right htarget)
  · rintro rfl
    rfl
  · intro h
    have htail := (List.cons.inj (List.append_cancel_left (utf8_inj.mp h))).2
    have htarget := (List.cons.inj (List.append_cancel_left htail)).2
    exact String.toList_inj.mp (List.cons.inj (List.append_cancel_left htarget)).2
  · rintro rfl
    rfl

/-! ## The rows -/

/-- A row of `audit_events`. -/
structure Row where
  prevHash : Option String
  action : String
  targetId : String
  detailJson : String
  hash : String

section
variable (sha256Hex : List UInt8 → String)

/-- The hash that the next event follows.  The writers of `skill_desired.rs` trim it. -/
def lastHash (trims : Bool) (rows : List Row) : String :=
  let hash := (rows.getLast?.map (·.hash)).getD ""
  if trims then .ofList (trim hash.toList) else hash

/-- What a writer appends. -/
structure Request where
  trims : Bool
  action : Action
  targetId : String
  detail : Json
  spelled : detail.spelled = true

def Request.detailJson (request : Request) : String := .ofList request.detail.compact

/-- The insertion of the writers. -/
def appendAudit (rows : List Row) (request : Request) : List Row :=
  let prev := lastHash request.trims rows
  rows ++ [{
    prevHash := if prev = "" then none else some prev
    action := request.action.name
    targetId := request.targetId
    detailJson := request.detailJson
    hash := sha256Hex (auditInput prev request.action.name request.targetId request.detailJson) }]

/-- The row that an event is stored as. -/
def Event.row (event : Event) : Row where
  prevHash := if event.prevHash = "" then none else some event.prevHash
  action := event.action.name
  targetId := event.targetId
  detailJson := event.detailJson
  hash := sha256Hex event.hashInput

variable {sha256Hex}

theorem isHash_trim {text : String} (h : IsHash text) : IsHash (.ofList (trim text.toList)) := by
  intro c hc
  obtain ⟨before, after, heq, -, -⟩ := exists_trim text.toList
  rw [String.toList_ofList] at hc
  refine h c ?_
  rw [heq]
  exact List.mem_append_right _ (List.mem_append_left _ hc)

theorem isHash_lastHash (hhash : ∀ bytes, IsHash (sha256Hex bytes)) (trims : Bool) {rows : List Row}
    (h : ∀ row ∈ rows, ∃ event, row = Event.row sha256Hex event) : IsHash (lastHash trims rows) := by
  have hlast : IsHash ((rows.getLast?.map (·.hash)).getD "") := by
    cases hrow : rows.getLast? with
    | none => exact fun c hc => absurd hc List.not_mem_nil
    | some row =>
      obtain ⟨event, rfl⟩ := h row (List.mem_of_getLast? hrow)
      exact hhash _
  cases trims with
  | true => exact isHash_trim hlast
  | false => exact hlast

/-- Every row that the writers leave is that of an event. -/
theorem stored_event (hhash : ∀ bytes, IsHash (sha256Hex bytes)) (requests : List Request) :
    ∀ row ∈ requests.foldl (appendAudit sha256Hex) [], ∃ event, row = Event.row sha256Hex event := by
  induction requests using List.reverseRecOn with
  | nil => exact fun row hrow => absurd hrow List.not_mem_nil
  | append_singleton requests request ih =>
    intro row hrow
    rw [List.foldl_append] at hrow
    rcases List.mem_append.mp hrow with hrow | hrow
    · exact ih row hrow
    · exact ⟨⟨_, request.action, request.targetId, request.detail,
        isHash_lastHash hhash request.trims ih, request.spelled⟩, List.mem_singleton.mp hrow⟩

end

end Novbot.Audit
