import Novbot.Config.Execute
import Novbot.Control.Reports
import Novbot.Control.Session
import Novbot.Lib.Lines
import Novbot.Skills.Stopped

/-!
# Desired skills and reports on the wire

The center sends the rows of a node's desired set (`build_desired`), the node reads them
(`DesiredSet::from_proto`), and what it settled comes back as a report (`to_report`).  The list of
a node's skills (`list_node_skills`) shows a state for each desired row, derived from the row that
the last accepted report left.
-/

namespace Novbot.Delivery

open Novbot.Control (NodeId InstalledSkill SkillStateReport SkillRef DesiredSkills DesiredRow ActualRow
  Db)
open Novbot.Skills (ReportedSkill SkillSnapshot DesiredSkill DesiredSet ReportState)
open Text

/-! ## Desired sets -/

/-- A row of the desired set, with the ticket and the envelope that go with it. -/
def skillRef (row : DesiredRow) (ticket : String) (envelope : List UInt8) : SkillRef where
  name := row.skillName
  version := row.version
  sha256 := Control.Hub.normalSha row.sha256
  sizeBytes := row.sizeBytes
  abi := row.abi
  capabilitiesSha256 := .ofList (trim row.capabilitiesSha256.toList)
  signatureEnvelope := envelope
  fetchTicket := ticket

/-- `build_desired`, from what it read. -/
def buildDesired (nodeId : NodeId) (generation : Int) (rows : List DesiredRow)
    (issue : DesiredRow → String × List UInt8) : DesiredSkills :=
  ⟨nodeId, generation, rows.map fun row => skillRef row (issue row).1 (issue row).2,
    Control.defaultPolicy⟩

/-- `DesiredSkill::from_proto`. -/
def skillFromProto (skill : SkillRef) : DesiredSkill where
  name := skill.name
  version := skill.version
  sha256 := Control.Hub.normalSha skill.sha256
  sizeBytes := skill.sizeBytes.toNat
  abi := skill.abi
  signatureEnvelope := skill.signatureEnvelope
  fetchTicket := skill.fetchTicket

/-- `DesiredSet::from_proto`. -/
def setFromProto (message : DesiredSkills) : DesiredSet :=
  ⟨message.generation, message.skills.map skillFromProto,
    Skills.SkillPolicy.fromProto (some message.policy)⟩

/-! ## Reports -/

def reportStateText : ReportState → String
  | .installed => "installed"
  | .failed => "failed"

def i32Max : Nat := 2 ^ 31 - 1

/-- `ReportedSkill::to_proto`. -/
def reportedToProto (skill : ReportedSkill) : InstalledSkill where
  name := skill.name
  version := skill.version
  sha256 := skill.sha256
  state := reportStateText skill.state
  reason := (skill.reason.map Skills.Reason.text).getD ""
  reasonDetail := skill.reasonDetail
  attempts := min skill.attempts i32Max
  previousSha256 := skill.previousSha256

/-- `SkillSnapshot::to_report`. -/
def toReport (nodeId : NodeId) (snapshot : SkillSnapshot) : SkillStateReport :=
  ⟨nodeId, snapshot.appliedGeneration, snapshot.skills.map reportedToProto⟩

/-! ## The list of a node's skills -/

inductive SkillSource where
  | builtin
  | hub
  deriving DecidableEq

inductive ShownState where
  | installed
  | failed
  | pending
  | queued
  deriving DecidableEq

structure NodeSkillItem where
  name : String
  source : SkillSource
  state : ShownState
  desiredVersion : Option String
  actualVersion : Option String

structure NodeSkillsResponse where
  nodeId : NodeId
  generation : Int
  appliedGeneration : Int
  items : List NodeSkillItem

/-- Two hashes agree up to case and the blanks around them. -/
def sameSha (left right : String) : Bool := eqIgnoreCase (trim left.toList) (trim right.toList)

def derivedState (connected : Bool) (desiredSha : String) (generation : Int)
    (actual : Option ActualRow) : ShownState :=
  let waiting := if connected then ShownState.pending else .queued
  match actual with
  | some row =>
    if row.skill.state = "installed" ∧ sameSha row.skill.sha256 desiredSha = true then .installed
    else if row.skill.state = "failed" ∧ row.appliedGeneration = generation then .failed
    else waiting
  | none => waiting

def actualFor (db : Db) (nodeId : NodeId) (name : String) : Option ActualRow :=
  (db.actual nodeId).find? fun row => row.skill.name = name

def builtinItem (name : String) : NodeSkillItem := ⟨name, .builtin, .installed, none, none⟩

def hubItem (db : Db) (connected : Bool) (nodeId : NodeId) (row : DesiredRow) : NodeSkillItem :=
  let actual := actualFor db nodeId row.skillName
  ⟨row.skillName, .hub, derivedState connected row.sha256 (db.skillGeneration nodeId) actual,
    some row.version, actual.map (·.skill.version)⟩

/-- `list_node_skills`, with all tables read at one time. -/
def listNodeSkills (db : Db) (connected : Bool) (nodeId : NodeId) : Option NodeSkillsResponse :=
  if nodeId ∈ db.nodes then
    some ⟨nodeId, db.skillGeneration nodeId, db.appliedGeneration nodeId,
      Config.listSkills.map builtinItem ++ (db.desired nodeId).map (hubItem db connected nodeId)⟩
  else none

/-! ## Hashes -/

/-- A letter stays a letter, and what is no capital letter stays as it is. -/
theorem toAsciiLowercase_cases (c : Char) :
    65 ≤ c.toNat ∧ c.toNat ≤ 90 ∧ (toAsciiLowercase c).toNat = c.toNat + 32 ∨
      isAsciiUppercase c = false ∧ toAsciiLowercase c = c := by
  cases hupper : isAsciiUppercase c with
  | false =>
    right
    rw [toAsciiLowercase, hupper]
    exact ⟨rfl, if_neg Bool.false_ne_true⟩
  | true =>
    left
    have hbounds := hupper
    simp only [isAsciiUppercase, Bool.and_eq_true, decide_eq_true_eq] at hbounds
    obtain ⟨hlow, hhigh⟩ := hbounds
    have hlow' : 65 ≤ c.toNat := hlow
    have hhigh' : c.toNat ≤ 90 := hhigh
    rw [toAsciiLowercase, if_pos hupper]
    exact ⟨hlow', hhigh', toNat_ofNat (.inl (by omega))⟩

theorem not_white_of_letter {c : Char} (hlow : 65 ≤ c.toNat) (hhigh : c.toNat ≤ 122) :
    isWhiteSpace c = false := by
  simp only [isWhiteSpace, Bool.or_eq_false_iff, Bool.and_eq_false_iff, decide_eq_false_iff_not,
    beq_eq_false_iff_ne]
  omega

theorem isWhiteSpace_toAsciiLowercase (c : Char) :
    isWhiteSpace (toAsciiLowercase c) = isWhiteSpace c := by
  rcases toAsciiLowercase_cases c with ⟨hlow, hhigh, hcode⟩ | ⟨-, hsame⟩
  · rw [not_white_of_letter (c := c) hlow (by omega), not_white_of_letter (by omega) (by omega)]
  · rw [hsame]

theorem toAsciiLowercase_again (c : Char) :
    toAsciiLowercase (toAsciiLowercase c) = toAsciiLowercase c := by
  rcases toAsciiLowercase_cases (toAsciiLowercase c) with ⟨hlow', hhigh', -⟩ | ⟨-, hsame⟩
  · rcases toAsciiLowercase_cases c with ⟨hlow, -, hcode⟩ | ⟨-, hsame⟩
    · omega
    · rw [hsame, hsame]
  · exact hsame

theorem trim_map {f : Char → Char} (hf : ∀ c, isWhiteSpace (f c) = isWhiteSpace c) (cs : List Char) :
    trim (cs.map f) = (trim cs).map f := by
  have hwhite : isWhiteSpace ∘ f = isWhiteSpace := funext hf
  simp only [trim, trimStart, trimEndMatches, List.dropWhile_map, ← List.map_reverse, hwhite]

theorem trim_normalSha (sha256 : String) :
    trim (Control.Hub.normalSha sha256).toList = (trim sha256.toList).map toAsciiLowercase := by
  rw [Control.Hub.normalSha, String.toList_ofList, trim_map isWhiteSpace_toAsciiLowercase, trim_trim]

theorem lowercase_again (cs : List Char) :
    (cs.map toAsciiLowercase).map toAsciiLowercase = cs.map toAsciiLowercase := by
  rw [List.map_map]
  exact List.map_congr_left fun c _ => toAsciiLowercase_again c

/-- The node reads a hash of the center as it was sent. -/
theorem normalSha_again (sha256 : String) :
    Control.Hub.normalSha (Control.Hub.normalSha sha256) = Control.Hub.normalSha sha256 := by
  rw [Control.Hub.normalSha, trim_normalSha, lowercase_again]
  rfl

theorem sameSha_normalSha (sha256 : String) : sameSha (Control.Hub.normalSha sha256) sha256 = true := by
  rw [sameSha, trim_normalSha, eqIgnoreCase_iff, lowercase_again]

theorem sameSha_iff {left right : String} :
    sameSha left right = true ↔ Control.Hub.normalSha left = Control.Hub.normalSha right := by
  rw [sameSha, eqIgnoreCase_iff, Control.Hub.normalSha, Control.Hub.normalSha, String.ofList_inj]

end Novbot.Delivery
