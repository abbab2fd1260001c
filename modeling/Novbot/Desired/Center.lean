import Novbot.Lib.Machine
import Novbot.Desired.Plans
import Novbot.Skills.Host

/-!
# Requests for skills, and the nodes that they are for

The requests that change desired sets, each in one transaction, and the delivery of a
node's desired set.  A transaction sees the tables as they were when it began, with its own
writes, and its writes take effect on what is committed when it commits.  `persist` locks
the audit chain before it writes, and the lock is held until the transaction ends.

The center also remembers, for each node, what was committed for it, newest first.  A
node is a skill host, and the messages to it may be delivered late, in any order, more
than once or not at all.
-/

namespace Novbot.Desired

open Concurrent

/-! ## Requests -/

inductive Op where
  /-- `begin`, and the first read. -/
  | begin
  | loadDesired (skillName : String)
  | loadGenerations
  | lockChain
  /-- The statements of `persist` for a node that has an action. -/
  | write (write : NodeWrite)
  | commit
  | rollback
  | readGeneration (nodeId : String)
  | readDesired (nodeId : String)
  /-- `DesiredSkills` goes out to the node. -/
  | push (nodeId : String) (generation : Int) (skills : SkillSet)

@[reducible] def Op.Reply : Op → Type
  | .begin => Unit
  | .loadDesired _ => String → Option Row
  | .loadGenerations => String → Option Int
  | .lockChain => Unit
  | .write _ => Unit
  | .commit => Unit
  | .rollback => Unit
  | .readGeneration _ => Int
  | .readDesired _ => SkillSet
  | .push _ _ _ => Unit

abbrev Prog (α : Type) := Program Op.Reply α

def call (op : Op) : Prog op.Reply := Program.call op

def persistNodes (skillName : String) : List NodePlan → Prog Unit
  | [] => pure ()
  | plan :: plans => do
    match plan.action with
    | some action => call (.write ⟨plan.nodeId, skillName, action, plan.generation⟩)
    | none => pure ()
    persistNodes skillName plans

def persist (skillName : String) (plans : List NodePlan) : Prog Unit := do
  call .lockChain
  persistNodes skillName plans

/-- The nodes of a request, which `resolve` takes from the selection.  It gives each node
once, and nothing is planned for one that is missing. -/
structure Slots where
  nodes : List LiveNode
  distinct : (nodes.map (·.nodeId)).Nodup

variable (setup : Setup)

def writeInstalls (slots : Slots) : List InstallPlan → Prog Unit
  | [] => pure ()
  | plan :: plans => do
    let desired ← call (.loadDesired plan.skillName)
    let gens ← call .loadGenerations
    persist plan.skillName (slots.nodes.map (classifyInstall setup desired gens plan))
    writeInstalls slots plans

/-- `apply_installs`, for one skill or for the skills of a bundle. -/
def applyInstalls (plans : List InstallPlan) (slots : Slots) (dryRun : Bool) : Prog Unit := do
  call .begin
  if dryRun || slots.nodes.isEmpty || plans.isEmpty then call .rollback
  else
    writeInstalls setup slots plans
    call .commit

def rollback (skillName : String) (explicit : Option VersionRecord) (versions : List VersionRecord)
    (slots : Slots) : Prog Unit := do
  call .begin
  if slots.nodes.isEmpty then call .rollback
  else
    let desired ← call (.loadDesired skillName)
    let gens ← call .loadGenerations
    let plans := slots.nodes.map (classifyRollback setup desired gens explicit versions)
    if explicit.isNone && plans.all fun plan => plan.outcome = .noPreviousVersion then
      call .rollback
    else
      persist skillName plans
      call .commit

/-- `inUse` when a spec of one of the nodes uses the skill. -/
def uninstall (skillName : String) (slots : Slots) (force inUse : Bool) : Prog Unit := do
  call .begin
  if slots.nodes.isEmpty || (!force && inUse) then call .rollback
  else
    let desired ← call (.loadDesired skillName)
    let gens ← call .loadGenerations
    persist skillName (slots.nodes.map (classifyUninstall desired gens))
    call .commit

/-- `build_desired`, two statements outside a transaction. -/
def deliver (nodeId : String) : Prog Unit := do
  let generation ← call (.readGeneration nodeId)
  let skills ← call (.readDesired nodeId)
  call (.push nodeId generation skills)

inductive Request where
  | applyInstalls (plans : List InstallPlan) (slots : Slots) (dryRun : Bool)
  | rollback (skillName : String) (explicit : Option VersionRecord)
    (versions : List VersionRecord) (slots : Slots)
  | uninstall (skillName : String) (slots : Slots) (force inUse : Bool)
  | deliver (nodeId : String)

def Request.prog : Request → Prog Unit
  | .applyInstalls plans slots dryRun => Desired.applyInstalls setup plans slots dryRun
  | .rollback skillName explicit versions slots =>
    Desired.rollback setup skillName explicit versions slots
  | .uninstall skillName slots force inUse => Desired.uninstall skillName slots force inUse
  | .deliver nodeId => Desired.deliver nodeId

/-! ## The center and its nodes -/

/-- An open transaction. -/
structure Tx where
  snapshot : Tables
  writes : List NodeWrite

/-- What the transaction reads. -/
def Tx.view (tx : Tx) : Tables := applyAll tx.writes tx.snapshot

/-- A desired set as it is sent. -/
abbrev Sent := Int × SkillSet

structure Center where
  tables : Tables
  /-- The transaction that holds the lock of the audit chain. -/
  holder : Option Nat
  txs : Nat → Option Tx
  /-- What was committed for a node, newest first. -/
  history : String → List Sent
  /-- What was sent to a node. -/
  wire : String → List Sent
  hosts : String → Skills.Host
  /-- The desired set that a node applied last. -/
  applied : String → SkillSet
  /-- The generations that a node received. -/
  received : String → List Int

def Center.commit (center : Center) (tx : Tx) : Center :=
  let tables := applyAll tx.writes center.tables
  { center with
    tables
    history := fun nodeId =>
      if writesFor tx.writes nodeId = 0 then center.history nodeId
      else (tables.gen nodeId, tables.desired nodeId) :: center.history nodeId }

def Center.finish (center : Center) (t : Nat) : Center :=
  { center with
    holder := if center.holder = some t then none else center.holder
    txs := Function.update center.txs t none }

/-- A deletion of no row writes nothing. -/
def Center.writes (center : Center) (tx : Tx) (write : NodeWrite) : Bool :=
  match write.action with
  | .upsert _ => true
  | .delete => ((applyAll tx.writes center.tables).desired write.nodeId).contains write.skillName

def exec (t : Nat) : (op : Op) → Center → Option (op.Reply × Center)
  | .begin, center => some ((), { center with
      txs := Function.update center.txs t (some ⟨center.tables, []⟩) })
  | .loadDesired skillName, center => (center.txs t).map fun tx =>
      (fun nodeId => (tx.view.desired nodeId).lookup skillName, center)
  | .loadGenerations, center => (center.txs t).map fun tx => (tx.view.generation, center)
  | .lockChain, center =>
    if center.holder.all (· == t) then some ((), { center with holder := some t }) else none
  | .write write, center => (center.txs t).map fun tx =>
      ((), if center.writes tx write then
          { center with
            txs := Function.update center.txs t (some { tx with writes := tx.writes ++ [write] }) }
        else center)
  | .commit, center => (center.txs t).map fun tx => ((), (center.commit tx).finish t)
  | .rollback, center => some ((), center.finish t)
  | .readGeneration nodeId, center => some (center.tables.gen nodeId, center)
  | .readDesired nodeId, center => some (center.tables.desired nodeId, center)
  | .push nodeId generation skills, center => some ((), { center with
      wire := Function.update center.wire nodeId ((generation, skills) :: center.wire nodeId) })

/-- What a thread has read. -/
structure Loc where
  /-- The generations that were loaded last. -/
  gens : Option (String → Option Int)
  /-- The nodes that were written since. -/
  since : List String
  generation : Option (String × Int)
  built : Option (String × Sent)

def Loc.fresh : Loc := ⟨none, [], none, none⟩

def note (op : Op) (reply : op.Reply) (loc : Loc) : Loc :=
  match op, reply with
  | .loadGenerations, gens => { loc with gens := some gens, since := [] }
  | .write write, _ => { loc with since := write.nodeId :: loc.since }
  | .readGeneration nodeId, generation => { loc with generation := some (nodeId, generation) }
  | .readDesired nodeId, skills =>
    { loc with built := loc.generation.map fun (_, generation) => (nodeId, generation, skills) }
  | _, _ => loc

/-- What a delivery depends on besides the message. -/
structure Delivery where
  setup : Skills.Setup
  conditions : Skills.Conditions
  /-- The size, the interface and the ticket of each skill. -/
  details : String → Skills.DesiredSkill

inductive Event where
  | start (t : Nat) (request : Request)
  /-- The request fails, and its transaction is rolled back. -/
  | abort (t : Nat)
  /-- A node receives one of the messages that were sent to it. -/
  | receive (nodeId : String) (index : Nat) (delivery : Delivery)

abbrev System := Sys Op.Reply Nat Loc Center

def desiredSet (sent : Sent) (details : String → Skills.DesiredSkill) : Skills.DesiredSet where
  generation := sent.1
  skills := sent.2.entries.map fun (name, row) =>
    { details name with name, version := row.version, sha256 := row.sha256 }
  policy := Skills.defaultPolicy

def Center.receive (center : Center) (nodeId : String) (sent : Sent) (delivery : Delivery) :
    Center :=
  let host := center.hosts nodeId
  let desired := desiredSet sent delivery.details
  { center with
    hosts := Function.update center.hosts nodeId
      (host.reconcile delivery.setup desired delivery.conditions).1
    applied := Function.update center.applied nodeId
      (if host.inner.isNoop desired then center.applied nodeId else sent.2)
    received := Function.update center.received nodeId (sent.1 :: center.received nodeId) }

def fire : Event → System → Option System
  | .start t request, sys =>
    if sys.idle t && (sys.shared.txs t).isNone then
      some ⟨sys.shared, Function.update sys.threads t ⟨request.prog setup, .fresh⟩⟩
    else none
  | .abort t, sys =>
    some ⟨sys.shared.finish t, Function.update sys.threads t ⟨.done (), .fresh⟩⟩
  | .receive nodeId index delivery, sys =>
    (sys.shared.wire nodeId)[index]?.map fun sent =>
      ⟨sys.shared.receive nodeId sent delivery, sys.threads⟩

def center : Machine Op.Reply Nat Loc Center Unit Event where
  exec t _ op _ center := exec t op center
  note _ op reply loc := note op reply loc
  fire := fire setup

/-- No skill was ever desired, and the nodes have no generation applied. -/
def initial (hosts : String → Skills.Host) : System where
  shared := ⟨.initial, none, fun _ => none, fun _ => [(0, .empty)], fun _ => [], hosts,
    fun _ => .empty, fun _ => []⟩
  threads _ := ⟨.done (), .fresh⟩

/-! ## What a thread may do -/

/-- A write goes to a node that has not been written since the generations were loaded, and
counts its generation up. -/
def mayPerform (op : Op) (loc : Loc) : Prop :=
  match op with
  | .write write => ∃ gens, loc.gens = some gens ∧ write.nodeId ∉ loc.since ∧
      write.generation = (gens write.nodeId).getD 0 + 1
  | .begin => loc.gens = none
  | .readDesired nodeId => ∃ generation, loc.generation = some (nodeId, generation)
  | .push nodeId generation skills => loc.built = some (nodeId, generation, skills)
  | _ => True

def terms : Machine.Terms Op.Reply Nat Loc where
  pre _ op loc := mayPerform op loc
  gives _ _ _ _ := True
  rest _ _ := True

abbrev meets {α : Type} (prog : Prog α) (post : α → Loc → Prop) (loc : Loc) : Prop :=
  prog.Meets ⟨mayPerform, fun _ _ _ => True, note⟩ post loc

theorem persistNodes_meets {skillName : String} {gens : String → Option Int}
    {plans : List NodePlan} {loc : Loc} (hgens : loc.gens = some gens)
    (hcounts : ∀ plan ∈ plans, plan.action ≠ none →
      plan.generation = (gens plan.nodeId).getD 0 + 1)
    (hdistinct : (plans.map (·.nodeId)).Nodup)
    (hfresh : ∀ plan ∈ plans, plan.nodeId ∉ loc.since) :
    meets (persistNodes skillName plans) (fun _ _ => True) loc := by
  induction plans generalizing loc with
  | nil => trivial
  | cons plan plans ih =>
    obtain ⟨hne, hdistinct⟩ := List.nodup_cons.mp hdistinct
    have hlater : ∀ later ∈ plans, later.action ≠ none →
        later.generation = (gens later.nodeId).getD 0 + 1 :=
      fun later hmem => hcounts later (.tail _ hmem)
    unfold persistNodes
    cases haction : plan.action with
    | none => exact ih hgens hlater hdistinct fun later hmem => hfresh later (.tail _ hmem)
    | some action =>
      refine ⟨⟨gens, hgens, hfresh plan List.mem_cons_self, ?_⟩, fun _ _ => ?_⟩
      · exact hcounts plan List.mem_cons_self (by rw [haction]; exact Option.some_ne_none _)
      · refine ih hgens hlater hdistinct fun later hmem hsince => ?_
        rcases List.mem_cons.mp hsince with heq | hsince
        · exact hne (List.mem_map.mpr ⟨later, hmem, heq⟩)
        · exact hfresh later (.tail _ hmem) hsince

/-- The decisions for the nodes of a request count their generations up. -/
theorem persist_meets {skillName : String} {gens : String → Option Int} {slots : Slots}
    {classify : LiveNode → NodePlan} {loc : Loc} (hgens : loc.gens = some gens)
    (hsince : loc.since = []) (hcounts : ∀ node, Counts gens node (classify node)) :
    meets (persist skillName (slots.nodes.map classify)) (fun _ _ => True) loc := by
  refine ⟨trivial, fun _ _ => persistNodes_meets hgens ?_ ?_ ?_⟩
  · intro plan hplan haction
    obtain ⟨node, -, rfl⟩ := List.mem_map.mp hplan
    rw [(hcounts node).generation haction, (hcounts node).nodeId]
  · rw [List.map_map]
    have hids : (fun plan : NodePlan => plan.nodeId) ∘ classify = fun node => node.nodeId :=
      funext fun node => (hcounts node).nodeId
    rw [hids]
    exact slots.distinct
  · intro plan _ hmem
    have hnone : plan.nodeId ∈ loc.since := hmem
    rw [hsince] at hnone
    cases hnone

theorem writeInstalls_meets (slots : Slots) (plans : List InstallPlan) (loc : Loc) :
    meets (writeInstalls setup slots plans) (fun _ _ => True) loc := by
  induction plans generalizing loc with
  | nil => trivial
  | cons plan plans ih =>
    refine ⟨trivial, fun desired _ => ⟨trivial, fun gens _ => ?_⟩⟩
    have hpersist : meets
        (persist plan.skillName (slots.nodes.map (classifyInstall setup desired gens plan)))
        (fun _ _ => True) { loc with gens := some gens, since := [] } :=
      persist_meets rfl rfl fun node => counts_classifyVersion
    show meets (persist _ _ >>= fun _ => writeInstalls setup slots plans) _ _
    exact hpersist.bind fun _ loc _ => ih loc

theorem prog_meets (request : Request) :
    meets (request.prog setup) (fun _ _ => True) .fresh := by
  cases request with
  | applyInstalls plans slots dryRun =>
    refine ⟨rfl, fun _ _ => ?_⟩
    split
    · exact ⟨trivial, fun _ _ => trivial⟩
    · exact (writeInstalls_meets setup slots plans _).bind fun _ _ _ =>
        ⟨trivial, fun _ _ => trivial⟩
  | rollback skillName explicit versions slots =>
    refine ⟨rfl, fun _ _ => ?_⟩
    split
    · exact ⟨trivial, fun _ _ => trivial⟩
    · refine ⟨trivial, fun desired _ => ⟨trivial, fun gens _ => ?_⟩⟩
      have hpersist : meets
          (persist skillName
            (slots.nodes.map (classifyRollback setup desired gens explicit versions)))
          (fun _ _ => True) { Loc.fresh with gens := some gens } :=
        persist_meets rfl rfl fun node => counts_classifyRollback
      show meets (if _ then _ else persist _ _ >>= fun _ => call .commit) _ _
      split
      · exact ⟨trivial, fun _ _ => trivial⟩
      · exact hpersist.bind fun _ _ _ => ⟨trivial, fun _ _ => trivial⟩
  | uninstall skillName slots force inUse =>
    refine ⟨rfl, fun _ _ => ?_⟩
    split
    · exact ⟨trivial, fun _ _ => trivial⟩
    · refine ⟨trivial, fun desired _ => ⟨trivial, fun gens _ => ?_⟩⟩
      have hpersist : meets (persist skillName (slots.nodes.map (classifyUninstall desired gens)))
          (fun _ _ => True) { Loc.fresh with gens := some gens } :=
        persist_meets rfl rfl fun node => counts_classifyUninstall
      show meets (persist _ _ >>= fun _ => call .commit) _ _
      exact hpersist.bind fun _ _ _ => ⟨trivial, fun _ _ => trivial⟩
  | deliver nodeId =>
    exact ⟨trivial, fun generation _ => ⟨⟨generation, rfl⟩, fun skills _ =>
      ⟨rfl, fun _ _ => trivial⟩⟩⟩

theorem center_obeys : (center setup).Obeys terms where
  exec _ _ _ _ _ _ _ _ _ := trivial
  fire e sys sys' hsound h := by
    cases e with
    | start t request =>
      simp only [center, fire] at h
      split at h
      · cases h
        refine hsound.update ?_ _
        exact prog_meets setup request
      · cases h
    | abort t =>
      cases h
      refine hsound.update ?_ _
      trivial
    | receive nodeId index delivery =>
      simp only [center, fire, Option.map_eq_some_iff] at h
      obtain ⟨sent, -, rfl⟩ := h
      exact hsound

theorem initial_sound (hosts : String → Skills.Host) : (center setup).Sound terms (initial hosts) :=
  fun _ => trivial

end Novbot.Desired
