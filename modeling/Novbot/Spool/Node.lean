import Novbot.Control.World

/-!
# The spool file of a node

`RetrySpool` of `novbot-core/src/retry.rs` in the detail that its interleavings need, with
`send_report_or_spool` and `flush_spool` of `novbot-node/src/main.rs`.  An append writes a
line and then its end.  `drain` looks for the file, reads it and clears it, one after the
other, and skips a line that is not one report.  Any number of tasks report and flush.

A session's channel takes what is sent until it is closed.  The stream behind it can be lost
with messages in it, and the center answers each message that arrives.  The node does not
look at the answers.
-/

namespace Novbot.Spool

open Concurrent Control

/-! ## The file -/

inductive Piece where
  | line (item : PendingReport)
  | newline
  deriving DecidableEq, Repr

/-- What was written between the ends of lines. -/
def fileLines : List Piece → List (List PendingReport)
  | [] => [[]]
  | .newline :: rest => [] :: fileLines rest
  | .line item :: rest =>
    match fileLines rest with
    | first :: more => (item :: first) :: more
    | [] => [[item]]

/-- Two reports in one line are no report. -/
def parseLine : List PendingReport → Option PendingReport
  | [item] => some item
  | _ => none

def itemsOf (file : List Piece) : List PendingReport := (fileLines file).filterMap parseLine

/-- Appends that do not overlap are read back. -/
theorem itemsOf_written (items : List PendingReport) :
    itemsOf (items.flatMap fun item => [.line item, .newline]) = items := by
  induction items with
  | nil => rfl
  | cons item items ih =>
    rw [itemsOf] at ih
    simp [itemsOf, fileLines, parseLine, ih]

/-- Of two lines that overlap none is read. -/
theorem itemsOf_overlapped (a b : PendingReport) (file : List Piece) :
    itemsOf (.line a :: .line b :: .newline :: .newline :: file) = itemsOf file := rfl

/-! ## The tasks -/

inductive Op where
  /-- A clone of the outbound sender. -/
  | sessionOut
  | clientSend (s : SessionId) (report : ReportResultRequest)
  | appendLine (item : PendingReport)
  | appendNewline
  | pathExists
  | readFile
  | clearFile

@[reducible] def Op.Reply : Op → Type
  | .sessionOut => Option SessionId
  | .clientSend _ _ => Bool
  | .appendLine _ => Unit
  | .appendNewline => Unit
  | .pathExists => Bool
  | .readFile => List PendingReport
  | .clearFile => Unit

abbrev Prog (α : Type) := Program Op.Reply α

def call (op : Op) : Prog op.Reply := Program.call op

def enqueue (item : PendingReport) : Prog Unit := do
  call (.appendLine { item with attempts := max item.attempts 1 })
  call .appendNewline

def drain : Prog (List PendingReport) := do
  if !(← call .pathExists) then return []
  let items ← call .readFile
  call .clearFile
  return items

def trySend (report : ReportResultRequest) : Prog Bool := do
  match ← call .sessionOut with
  | some tx => call (.clientSend tx report)
  | none => return false

def sendReportOrSpool (report : ReportResultRequest) : Prog Unit := do
  if !(← trySend report) then
    enqueue ⟨report, 1⟩

/-- The loop of `flush_spool`.  It stops at the first send that fails. -/
def sendDrained : List PendingReport → Prog Unit
  | [] => return
  | item :: items => do
    if ← trySend item.report then
      sendDrained items
    else
      enqueue { item with attempts := item.attempts + 1 }

def flushSpool : Prog Unit := do
  let connected := (← call .sessionOut).isSome
  if connected then
    let items ← drain
    sendDrained items

inductive Task where
  /-- A run ended with this report. -/
  | send (report : ReportResultRequest)
  | flush

def Task.prog : Task → Prog Unit
  | .send report => sendReportOrSpool report
  | .flush => flushSpool

/-! ## The node and its sessions -/

structure Channel where
  /-- Taken by the channel, and not yet handled by the center. -/
  inbound : List ReportResultRequest
  link : Link

structure Node where
  file : Option (List Piece)
  out : Option SessionId
  channels : SessionId → Channel
  produced : List ReportResultRequest
  /-- The reports whose `enqueue` returned. -/
  enqueued : List ReportResultRequest
  /-- The reports that a channel took. -/
  handed : List ReportResultRequest
  /-- The runs that the center answered `accepted` for. -/
  accepted : List RunId

def Node.pieces (node : Node) : List Piece := node.file.getD []

/-- The text of the report is in the file. -/
def Node.inFile (node : Node) (report : ReportResultRequest) : Prop :=
  ∃ item, .line item ∈ node.pieces ∧ item.report = report

structure Loc where
  /-- The reports in the task's hands. -/
  hand : List PendingReport
  /-- The line of the report in hand is written, and not yet its end. -/
  written : Bool

def Loc.reports (loc : Loc) : List ReportResultRequest := loc.hand.map (·.report)

def exec (loc : Loc) : (op : Op) → Node → op.Reply × Node
  | .sessionOut, node => (node.out, node)
  | .clientSend s report, node =>
    let channel := node.channels s
    let (sent, inbound) := sendOn channel.link channel.inbound report
    (sent, { node with
      channels := Function.update node.channels s ⟨inbound, channel.link⟩
      handed := if sent then report :: node.handed else node.handed })
  | .appendLine item, node => ((), { node with file := some (node.pieces ++ [.line item]) })
  | .appendNewline, node =>
    ((), { node with
      file := some (node.pieces ++ [.newline])
      enqueued := loc.reports ++ node.enqueued })
  | .pathExists, node => (node.file.isSome, node)
  | .readFile, node => (itemsOf node.pieces, node)
  | .clearFile, node => ((), { node with file := some [] })

def note (op : Op) (reply : op.Reply) (loc : Loc) : Loc :=
  match op, reply with
  | .sessionOut, none => { loc with hand := loc.hand.take 1 }
  | .clientSend _ _, true => { loc with hand := loc.hand.tail }
  | .clientSend _ _, false => { loc with hand := loc.hand.take 1 }
  | .appendLine _, _ => { loc with written := true }
  | .appendNewline, _ => ⟨[], false⟩
  | .readFile, items => { loc with hand := items }
  | _, _ => loc

def Task.hand : Task → List PendingReport
  | .send report => [⟨report, 1⟩]
  | .flush => []

def Task.produces : Task → List ReportResultRequest
  | .send report => [report]
  | .flush => []

inductive Event where
  | start (t : Nat) (task : Task)
  /-- The node opens a session. -/
  | connect (s : SessionId)
  | hangUp
  /-- The stream breaks, and the center still gets the first messages. -/
  | lose (s : SessionId) (kept : Nat)
  /-- The channel's receiver is dropped. -/
  | close (s : SessionId)
  /-- The center handles the next message, and stores the result or fails to. -/
  | handle (s : SessionId) (stores : Bool)

abbrev System := Sys Op.Reply Nat Loc Node

def Node.setChannel (node : Node) (s : SessionId) (channel : Channel) : Node :=
  { node with channels := Function.update node.channels s channel }

def fire : Event → System → Option System
  | .start t task, sys =>
    if sys.idle t then
      some ⟨{ sys.shared with produced := task.produces ++ sys.shared.produced },
        Function.update sys.threads t ⟨task.prog, ⟨task.hand, false⟩⟩⟩
    else none
  | .connect s, sys =>
    let node := sys.shared.setChannel s ⟨[], .up⟩
    some { sys with shared := { node with out := some s } }
  | .hangUp, sys => some { sys with shared := { sys.shared with out := none } }
  | .lose s kept, sys =>
    let channel := sys.shared.channels s
    let link := if channel.link = .up then .lost else channel.link
    some { sys with shared := sys.shared.setChannel s ⟨channel.inbound.take kept, link⟩ }
  | .close s, sys =>
    let channel := sys.shared.channels s
    some { sys with shared := sys.shared.setChannel s ⟨channel.inbound, .closed⟩ }
  | .handle s stores, sys =>
    let channel := sys.shared.channels s
    match channel.inbound with
    | [] => none
    | report :: rest =>
      let node := sys.shared.setChannel s ⟨rest, channel.link⟩
      some { sys with shared := { node with
        accepted := if stores then report.runId :: node.accepted else node.accepted } }

def node : Machine Op.Reply Nat Loc Node Unit Event where
  exec t locs op _ node := some (exec (locs t) op node)
  note _ := note
  fire := fire

def initial : System where
  shared := ⟨none, none, fun _ => ⟨[], .closed⟩, [], [], [], []⟩
  threads _ := ⟨.done (), ⟨[], false⟩⟩

/-! ## What is in a task's hands -/

def mayPerform (op : Op) (loc : Loc) : Prop :=
  match op with
  | .sessionOut => loc.written = false
  | .clientSend _ report =>
    loc.written = false ∧ ∃ item rest, loc.hand = item :: rest ∧ item.report = report
  | .appendLine item => loc.written = false ∧ loc.reports = [item.report]
  | .appendNewline => loc.written = true
  | .readFile => loc.written = false ∧ loc.hand = []
  | .clearFile => loc.written = false
  | .pathExists => True

def Loc.Rests (loc : Loc) : Prop := loc.hand = [] ∧ loc.written = false

def terms : Machine.Terms Op.Reply Nat Loc where
  pre _ op loc := mayPerform op loc
  gives _ _ _ _ := True
  rest _ loc := loc.Rests

abbrev meets {α : Type} (prog : Prog α) (post : α → Loc → Prop) (loc : Loc) : Prop :=
  prog.Meets ⟨mayPerform, fun _ _ _ => True, note⟩ post loc

variable {loc : Loc}

theorem enqueue_meets {item : PendingReport} (hwritten : loc.written = false)
    (hhand : loc.reports = [item.report]) :
    meets (enqueue item) (fun _ loc' => loc'.Rests) loc :=
  ⟨⟨hwritten, hhand⟩, fun _ _ => ⟨rfl, fun _ _ => ⟨rfl, rfl⟩⟩⟩

theorem trySend_meets (item : PendingReport) {rest : List PendingReport}
    (hwritten : loc.written = false) (hhand : loc.hand = item :: rest) :
    meets (trySend item.report) (fun sent loc' =>
      loc' = ⟨if sent then rest else [item], false⟩) loc := by
  obtain ⟨hand, written⟩ := loc
  cases hwritten
  cases hhand
  refine ⟨rfl, fun out _ => ?_⟩
  cases out with
  | none => rfl
  | some tx =>
    refine ⟨⟨rfl, item, rest, rfl, rfl⟩, fun sent _ => ?_⟩
    cases sent <;> rfl

theorem sendReportOrSpool_meets (report : ReportResultRequest) :
    meets (sendReportOrSpool report) (fun _ loc' => loc'.Rests) ⟨[⟨report, 1⟩], false⟩ := by
  refine (trySend_meets ⟨report, 1⟩ rfl rfl).bind fun sent loc' hloc => ?_
  subst hloc
  cases sent with
  | true => exact ⟨rfl, rfl⟩
  | false => exact enqueue_meets rfl rfl

theorem sendDrained_meets (items : List PendingReport) :
    meets (sendDrained items) (fun _ loc' => loc'.Rests) ⟨items, false⟩ := by
  induction items with
  | nil => exact ⟨rfl, rfl⟩
  | cons item items ih =>
    refine (trySend_meets item rfl rfl).bind fun sent loc' hloc => ?_
    subst hloc
    cases sent with
    | true => exact ih
    | false => exact enqueue_meets rfl rfl

theorem flushSpool_meets : meets flushSpool (fun _ loc' => loc'.Rests) ⟨[], false⟩ := by
  refine ⟨rfl, fun out _ => ?_⟩
  cases out with
  | none => exact ⟨rfl, rfl⟩
  | some tx =>
    refine ⟨trivial, fun found _ => ?_⟩
    cases found with
    | false => exact ⟨rfl, rfl⟩
    | true => exact ⟨⟨rfl, rfl⟩, fun items _ => ⟨rfl, fun _ _ => sendDrained_meets items⟩⟩

theorem prog_meets (task : Task) :
    meets task.prog (fun _ loc' => loc'.Rests) ⟨task.hand, false⟩ := by
  cases task with
  | send report => exact sendReportOrSpool_meets report
  | flush => exact flushSpool_meets

theorem node_obeys : node.Obeys terms where
  exec _ _ _ _ _ _ _ _ _ := trivial
  fire e sys sys' hsound h := by
    cases e with
    | start t task =>
      simp only [node, fire] at h
      split at h
      · cases h
        refine hsound.update ?_ _
        exact prog_meets task
      · cases h
    | handle s stores =>
      simp only [node, fire] at h
      split at h
      · cases h
      · cases h
        exact hsound
    | _ =>
      cases h
      exact hsound

theorem initial_sound : node.Sound terms initial := fun _ => ⟨rfl, rfl⟩

end Novbot.Spool
