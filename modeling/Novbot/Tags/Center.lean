import Novbot.Lib.Machine
import Novbot.Tags.Plans

/-!
# Tags in the database

The tables `nodes` and `node_tags`, and the transactions that write tags: a change of one
key, a bulk change, and the registration of a node.  A node id is compared under the
collation of its column, which is `fold`, and keys are compared as they are.  A row of a
node keeps the spelling of the id that it was inserted with.

A transaction reads from the snapshot of its first plain read.  It locks the row of each
node that it changes until it ends, and its writes take effect when it commits.
-/

namespace Novbot.Tags

open Concurrent

/-! ## Tables -/

/-- A row of `nodes`. -/
structure Node where
  nodeId : String
  version : String
  labels : SortedMap String String

/-- A row of `node_tags`. -/
structure TagRow where
  nodeId : String
  tag : StoredTag
  deriving DecidableEq, Repr

structure Tables where
  nodes : List Node
  tags : List TagRow

inductive Write where
  | upsertNode (node : Node)
  | insertTag (nodeId : String) (tag : StoredTag)
  /-- Deletes the rows that a registration reports. -/
  | deleteReported (nodeId : String)
  | deleteCenter (nodeId key : String)

section
variable (fold : String → String)

def sameNode (a b : String) : Bool := fold a == fold b

/-- The row has this primary key. -/
def TagRow.holds (row : TagRow) (nodeId : String) (source : Source) (key : String) : Bool :=
  sameNode fold row.nodeId nodeId && row.tag.source == source && row.tag.key == key

def nodeExists (tables : Tables) (nodeId : String) : Bool :=
  tables.nodes.any fun node => sameNode fold node.nodeId nodeId

def fetchTags (tables : Tables) (nodeId : String) : List StoredTag :=
  (tables.tags.filter fun row => sameNode fold row.nodeId nodeId).map (·.tag)

/-- `ON DUPLICATE KEY UPDATE` keeps the id. -/
def upsertNode (nodes : List Node) (node : Node) : List Node :=
  if nodes.any fun row => sameNode fold row.nodeId node.nodeId then
    nodes.map fun row =>
      if sameNode fold row.nodeId node.nodeId then ⟨row.nodeId, node.version, node.labels⟩ else row
  else nodes ++ [node]

/-- `ON DUPLICATE KEY UPDATE` keeps the primary key. -/
def insertTag (tags : List TagRow) (nodeId : String) (tag : StoredTag) : List TagRow :=
  if tags.any (·.holds fold nodeId tag.source tag.key) then
    tags.map fun row =>
      if row.holds fold nodeId tag.source tag.key then
        ⟨row.nodeId, row.tag.key, tag.value, row.tag.source, tag.valid, tag.invalidReason⟩
      else row
  else tags ++ [⟨nodeId, tag⟩]

def Write.apply (tables : Tables) : Write → Tables
  | .upsertNode node => { tables with nodes := Tags.upsertNode fold tables.nodes node }
  | .insertTag nodeId tag => { tables with tags := Tags.insertTag fold tables.tags nodeId tag }
  | .deleteReported nodeId =>
    { tables with tags := tables.tags.filter fun row =>
        !(sameNode fold row.nodeId nodeId && row.tag.source != .center) }
  | .deleteCenter nodeId key =>
    { tables with tags := tables.tags.filter fun row => !row.holds fold nodeId .center key }

def applyAll (writes : List Write) (tables : Tables) : Tables :=
  writes.foldl (Write.apply fold) tables

/-- The foreign key of `node_tags` holds. -/
def referenced (tables : Tables) : Bool :=
  tables.tags.all fun row => nodeExists fold tables row.nodeId

end

/-! ## Requests -/

inductive Op where
  | lockNode (nodeId : String)
  /-- The lock that the upsert of a node takes. -/
  | lockUpsert (nodeId : String)
  | fetchTags (nodeId : String)
  | commit (writes : List Write)
  | rollback

@[reducible] def Op.Reply : Op → Type
  | .lockNode _ => Bool
  | .lockUpsert _ => Unit
  | .fetchTags _ => List StoredTag
  | .commit _ => Unit
  | .rollback => Unit

abbrev Prog (α : Type) := Program Op.Reply α

def call (op : Op) : Prog op.Reply := Program.call op

def Change.write (nodeId : String) : Change → Write
  | .set key value => .insertTag nodeId (centerTag key value)
  | .remove key => .deleteCenter nodeId key

/-- Commits when the check passes. -/
def commitIf (check : Except TagError Unit) (writes : List Write) : Prog Unit :=
  match check with
  | .ok _ => call (.commit writes)
  | .error _ => call .rollback

def setCenterTag (nodeId key : String) (body : PutTagBody) : Prog Unit :=
  match validateCenterTag key body.value with
  | .error _ => pure ()
  | .ok _ => do
    if (← call (.lockNode nodeId)) then
      let rows ← call (.fetchTags nodeId)
      commitIf (checkSet nodeId key body rows) [(Change.set key body.value).write nodeId]
    else call .rollback

def deleteCenterTag (nodeId key : String) (confirmProd : Option Nat) : Prog Unit :=
  match validateCenterTag key "x" with
  | .error _ => pure ()
  | .ok _ => do
    if (← call (.lockNode nodeId)) then
      let rows ← call (.fetchTags nodeId)
      commitIf (checkDelete nodeId key confirmProd rows) [(Change.remove key).write nodeId]
    else call .rollback

/-- `load_plans` with locks. -/
def loadPlans (add : SortedMap String String) (remove : List String) :
    List String → Prog (List NodePlan)
  | [] => pure []
  | id :: ids => do
    let found ← call (.lockNode id)
    let rows ← if found then call (.fetchTags id) else pure []
    let plans ← loadPlans add remove ids
    pure (planNode rows id found add remove :: plans)

/-- `apply_plan`. -/
def NodePlan.writes (plan : NodePlan) : List Write := plan.changes.map (Change.write plan.nodeId)

/-- A dry run writes nothing. -/
def bulk (body : BulkBody) : Prog Unit :=
  match body.targets with
  | .error _ => pure ()
  | .ok (ids, remove) =>
    if body.dryRun then pure ()
    else do
      let plans ← loadPlans body.add remove ids
      commitIf (ensureProd (prodIdsOf plans) body.confirmProd) (plans.flatMap (·.writes))

structure Registration where
  nodeId : String
  version : String
  declared : SortedMap String String
  os : String
  arch : String

def Registration.writes (registration : Registration) : List Write :=
  .upsertNode ⟨registration.nodeId, registration.version, registration.declared⟩ ::
    .deleteReported registration.nodeId ::
    (classifyDeclaredTags registration.declared ++
      systemTags registration.version registration.os registration.arch).map
        (.insertTag registration.nodeId)

/-- What a registration reads is for its audit event. -/
def registerNode (registration : Registration) : Prog Unit := do
  call (.lockUpsert registration.nodeId)
  let _ ← call (.fetchTags registration.nodeId)
  call (.commit registration.writes)

inductive Request where
  | setCenterTag (nodeId key : String) (body : PutTagBody)
  | deleteCenterTag (nodeId key : String) (confirmProd : Option Nat)
  | bulk (body : BulkBody)
  | register (registration : Registration)

def Request.prog : Request → Prog Unit
  | .setCenterTag nodeId key body => Tags.setCenterTag nodeId key body
  | .deleteCenterTag nodeId key confirmProd => Tags.deleteCenterTag nodeId key confirmProd
  | .bulk body => Tags.bulk body
  | .register registration => registerNode registration

section
variable (fold : String → String)

/-- `backfill_one`, for a row of `nodes`. -/
def backfillWrites (tables : Tables) (node : Node) : List Write :=
  let rows := fetchTags fold tables node.nodeId
  (if rows.any (·.source == .node) then []
    else (classifyDeclaredTags node.labels).map (.insertTag node.nodeId)) ++
  if rows.any fun row => row.source == .system && row.key == "sys.version" then []
  else if node.version = "" ∨ node.version = "http-admin" then []
  else ((normalizeSystemValue node.version).map fun value =>
    Write.insertTag node.nodeId (systemTag "sys.version" value)).toList

/-! ## The center -/

structure Center where
  tables : Tables
  /-- The transaction that holds the lock of a node. -/
  holder : String → Option Nat
  /-- What an open transaction reads from. -/
  snapshots : Nat → Option Tables

def Center.free (center : Center) (t : Nat) (nodeId : String) : Bool :=
  (center.holder (fold nodeId)).all (· == t)

def Center.lock (center : Center) (t : Nat) (nodeId : String) : Center :=
  { center with holder := Function.update center.holder (fold nodeId) (some t) }

def Center.finish (center : Center) (t : Nat) : Center :=
  { center with
    holder := fun name => if center.holder name = some t then none else center.holder name
    snapshots := Function.update center.snapshots t none }

/-- A statement that breaks the foreign key fails, and its transaction with it. -/
def Center.commit (center : Center) (writes : List Write) : Center :=
  let tables := applyAll fold writes center.tables
  if referenced fold tables then { center with tables } else center

/-- The tables that a plain read of a transaction sees. -/
def Center.view (center : Center) (t : Nat) : Tables := (center.snapshots t).getD center.tables

/-- The reply and the center after an operation, or nothing when it waits for a lock. -/
def exec (t : Nat) : (op : Op) → Center → Option (op.Reply × Center)
  | .lockNode nodeId, center =>
    if center.free fold t nodeId then
      if nodeExists fold center.tables nodeId then some (true, center.lock fold t nodeId)
      else some (false, center)
    else none
  | .lockUpsert nodeId, center =>
    if center.free fold t nodeId then some ((), center.lock fold t nodeId) else none
  | .fetchTags nodeId, center =>
    some (Tags.fetchTags fold (center.view t) nodeId,
      { center with snapshots := Function.update center.snapshots t (some (center.view t)) })
  | .commit writes, center =>
    some ((), (center.commit fold writes).finish t)
  | .rollback, center => some ((), center.finish t)

/-- The history of a thread. -/
structure Loc where
  request : Option Request
  /-- The nodes that the transaction locked. -/
  locked : List String
  /-- What it read, in order. -/
  reads : List (String × List StoredTag)

def Loc.fresh (request : Option Request) : Loc := ⟨request, [], []⟩

def note (op : Op) (reply : op.Reply) (loc : Loc) : Loc :=
  match op, reply with
  | .lockNode nodeId, found => if found then { loc with locked := nodeId :: loc.locked } else loc
  | .lockUpsert nodeId, _ => { loc with locked := nodeId :: loc.locked }
  | .fetchTags nodeId, rows => { loc with reads := loc.reads ++ [(nodeId, rows)] }
  | .commit _, _ => .fresh none
  | .rollback, _ => .fresh none

inductive Event where
  | start (t : Nat) (request : Request)
  /-- The request fails, and its transaction is rolled back. -/
  | abort (t : Nat)
  /-- The center starts and fills in the tags of a row of `nodes`.  The foreign key of what it
  inserts waits for the lock of the row. -/
  | backfill (index : Nat)

abbrev System := Sys Op.Reply Nat Loc Center

def fire : Event → System → Option System
  | .start t request, sys =>
    if sys.idle t && (sys.shared.snapshots t).isNone then
      some ⟨sys.shared, Function.update sys.threads t ⟨request.prog, .fresh (some request)⟩⟩
    else none
  | .abort t, sys =>
    some ⟨sys.shared.finish t, Function.update sys.threads t ⟨.done (), .fresh none⟩⟩
  | .backfill index, sys =>
    (sys.shared.tables.nodes[index]?.filter fun node =>
      (sys.shared.holder (fold node.nodeId)).isNone).map fun node =>
        ⟨sys.shared.commit fold (backfillWrites fold sys.shared.tables node), sys.threads⟩

def center : Machine Op.Reply Nat Loc Center Unit Event where
  exec t _ op _ center := exec fold t op center
  note _ op reply loc := note op reply loc
  fire := fire fold

/-- No node ever registered. -/
def initial : System where
  shared := ⟨⟨[], []⟩, fun _ => none, fun _ => none⟩
  threads _ := ⟨.done (), .fresh none⟩

/-! ## What a request commits -/

/-- The thread read the rows of a node that it locked. -/
structure Loc.Read (loc : Loc) (nodeId : String) (rows : List StoredTag) : Prop where
  locked : nodeId ∈ loc.locked
  read : (nodeId, rows) ∈ loc.reads

/-- The plan was made from what was read for its node. -/
def Made (loc : Loc) (add : SortedMap String String) (remove : List String) (plan : NodePlan) :
    Prop :=
  plan.found = true →
    ∃ rows, loc.Read plan.nodeId rows ∧ plan = planNode rows plan.nodeId true add remove

def foundIds (plans : List NodePlan) : List String := (plans.filter (·.found)).map (·.nodeId)

/-- The writes that the transaction of a request commits, from what it read. -/
inductive Commits (loc : Loc) : List Write → Prop where
  | set {nodeId key : String} {body : PutTagBody} {rows : List StoredTag} :
    loc.request = some (.setCenterTag nodeId key body) →
    validateCenterTag key body.value = .ok () →
    loc.reads = [(nodeId, rows)] →
    loc.locked = [nodeId] →
    checkSet nodeId key body rows = .ok () →
    Commits loc [(Change.set key body.value).write nodeId]
  | delete {nodeId key : String} {confirmProd : Option Nat} {rows : List StoredTag} :
    loc.request = some (.deleteCenterTag nodeId key confirmProd) →
    loc.reads = [(nodeId, rows)] →
    loc.locked = [nodeId] →
    checkDelete nodeId key confirmProd rows = .ok () →
    Commits loc [(Change.remove key).write nodeId]
  | bulk {body : BulkBody} {ids remove : List String} {plans : List NodePlan} :
    loc.request = some (.bulk body) →
    body.targets = .ok (ids, remove) →
    (∀ plan ∈ plans, Made loc body.add remove plan) →
    (∀ plan ∈ plans, plan.prod = true → plan.found = true) →
    loc.locked = (foundIds plans).reverse →
    ensureProd (prodIdsOf plans) body.confirmProd = .ok () →
    Commits loc (plans.flatMap (·.writes))
  | register {registration : Registration} :
    loc.request = some (.register registration) →
    registration.nodeId ∈ loc.locked →
    Commits loc registration.writes

def mayPerform (op : Op) (loc : Loc) : Prop :=
  match op with
  | .commit writes => Commits loc writes
  | .fetchTags nodeId => nodeId ∈ loc.locked
  | _ => True

def terms : Machine.Terms Op.Reply Nat Loc where
  pre _ op loc := mayPerform op loc
  gives _ _ _ _ := True
  rest _ _ := True

abbrev meets {α : Type} (prog : Prog α) (post : α → Loc → Prop) (loc : Loc) : Prop :=
  prog.Meets ⟨mayPerform, fun _ _ _ => True, note⟩ post loc

theorem commitIf_meets {check : Except TagError Unit} {writes : List Write} {loc : Loc}
    (h : check = .ok () → Commits loc writes) :
    meets (commitIf check writes) (fun _ _ => True) loc := by
  cases hcheck : check with
  | error err => exact ⟨trivial, fun _ _ => trivial⟩
  | ok done => exact ⟨h hcheck, fun _ _ => trivial⟩

theorem setCenterTag_meets (nodeId key : String) (body : PutTagBody) :
    meets (setCenterTag nodeId key body) (fun _ _ => True)
      (.fresh (some (.setCenterTag nodeId key body))) := by
  cases hvalid : validateCenterTag key body.value with
  | error err =>
    rw [setCenterTag, hvalid]
    trivial
  | ok done =>
    rw [setCenterTag, hvalid]
    refine ⟨trivial, fun found _ => ?_⟩
    cases found with
    | false => exact ⟨trivial, fun _ _ => trivial⟩
    | true =>
      have hlocked : nodeId ∈ [nodeId] := List.mem_singleton_self nodeId
      exact ⟨hlocked, fun rows _ => commitIf_meets fun hcheck =>
        .set rfl hvalid rfl rfl hcheck⟩

theorem deleteCenterTag_meets (nodeId key : String) (confirmProd : Option Nat) :
    meets (deleteCenterTag nodeId key confirmProd) (fun _ _ => True)
      (.fresh (some (.deleteCenterTag nodeId key confirmProd))) := by
  cases hvalid : validateCenterTag key "x" with
  | error err =>
    rw [deleteCenterTag, hvalid]
    trivial
  | ok done =>
    rw [deleteCenterTag, hvalid]
    refine ⟨trivial, fun found _ => ?_⟩
    cases found with
    | false => exact ⟨trivial, fun _ _ => trivial⟩
    | true =>
      have hlocked : nodeId ∈ [nodeId] := List.mem_singleton_self nodeId
      exact ⟨hlocked, fun rows _ => commitIf_meets fun hcheck => .delete rfl rfl rfl hcheck⟩

/-- The history went on with locks and reads only. -/
structure Loc.Later (loc loc' : Loc) : Prop where
  request : loc'.request = loc.request
  locked : loc.locked ⊆ loc'.locked
  reads : loc.reads ⊆ loc'.reads

theorem Loc.Read.later {loc loc' : Loc} {nodeId : String} {rows : List StoredTag}
    (h : loc.Read nodeId rows) (hlater : loc.Later loc') : loc'.Read nodeId rows :=
  ⟨hlater.locked h.locked, hlater.reads h.read⟩

/-- What is known of the plans once they are loaded. -/
structure Loaded (loc loc' : Loc) (add : SortedMap String String) (remove : List String)
    (plans : List NodePlan) : Prop where
  later : loc.Later loc'
  made : ∀ plan ∈ plans, Made loc' add remove plan
  prod : ∀ plan ∈ plans, plan.prod = true → plan.found = true
  locked : loc'.locked = (foundIds plans).reverse ++ loc.locked

theorem loadPlans_meets {add : SortedMap String String} {remove : List String}
    (ids : List String) (loc : Loc) :
    meets (loadPlans add remove ids) (fun plans loc' => Loaded loc loc' add remove plans) loc := by
  induction ids generalizing loc with
  | nil =>
    exact ⟨⟨rfl, List.Subset.refl _, List.Subset.refl _⟩, fun plan hplan => (by cases hplan),
      fun plan hplan => (by cases hplan), rfl⟩
  | cons id ids ih =>
    refine ⟨trivial, fun found _ => ?_⟩
    cases found with
    | false =>
      refine (ih loc).bind ?_
      rintro plans loc' ⟨hlater, hmade, hprod, hlocked⟩
      refine ⟨hlater, fun plan hplan => ?_, fun plan hplan => ?_, hlocked⟩
      · rcases List.mem_cons.mp hplan with rfl | hplan
        · intro hfound
          cases hfound
        · exact hmade plan hplan
      · rcases List.mem_cons.mp hplan with rfl | hplan
        · intro hprod
          cases hprod
        · exact hprod plan hplan
    | true =>
      refine ⟨List.mem_cons_self, fun rows _ => (ih _).bind ?_⟩
      rintro plans loc' ⟨hlater, hmade, hprod, hlocked⟩
      have hread : loc'.Read id rows := by
        refine Loc.Read.later ⟨?_, ?_⟩ hlater
        · exact List.mem_cons_self
        · exact List.mem_append_right _ (List.mem_singleton_self _)
      have hstart : loc.Later loc' := by
        refine ⟨hlater.request, fun name hname => ?_, fun read hread => ?_⟩
        · exact hlater.locked (List.mem_cons_of_mem _ hname)
        · exact hlater.reads (List.mem_append_left _ hread)
      refine ⟨hstart, fun plan hplan => ?_, fun plan hplan => ?_, ?_⟩
      · rcases List.mem_cons.mp hplan with rfl | hplan
        · exact fun _ => ⟨rows, hread, rfl⟩
        · exact hmade plan hplan
      · rcases List.mem_cons.mp hplan with rfl | hplan
        · exact fun _ => rfl
        · exact hprod plan hplan
      · rw [hlocked]
        simp [foundIds, planNode, note]

theorem bulk_meets (body : BulkBody) :
    meets (bulk body) (fun _ _ => True) (.fresh (some (.bulk body))) := by
  cases htargets : body.targets with
  | error err =>
    rw [bulk, htargets]
    trivial
  | ok targets =>
    obtain ⟨ids, remove⟩ := targets
    rw [bulk, htargets]
    dsimp only
    split
    · trivial
    · refine (loadPlans_meets ids _).bind ?_
      rintro plans loc ⟨hlater, hmade, hprod, hlocked⟩
      rw [show Loc.locked (.fresh (some (.bulk body))) = [] from rfl, List.append_nil] at hlocked
      exact commitIf_meets fun hcheck =>
        .bulk hlater.request htargets hmade hprod hlocked hcheck

theorem prog_meets (request : Request) :
    meets request.prog (fun _ _ => True) (.fresh (some request)) := by
  cases request with
  | setCenterTag nodeId key body => exact setCenterTag_meets nodeId key body
  | deleteCenterTag nodeId key confirmProd => exact deleteCenterTag_meets nodeId key confirmProd
  | bulk body => exact bulk_meets body
  | register registration =>
    exact ⟨trivial, fun _ _ => ⟨List.mem_cons_self, fun rows _ =>
      ⟨.register rfl List.mem_cons_self, fun _ _ => trivial⟩⟩⟩

theorem center_obeys : (center fold).Obeys terms where
  exec _ _ _ _ _ _ _ _ _ := trivial
  fire e sys sys' hsound h := by
    cases e with
    | start t request =>
      simp only [center, fire] at h
      split at h
      · cases h
        refine hsound.update ?_ _
        exact prog_meets request
      · cases h
    | abort t =>
      cases h
      refine hsound.update ?_ _
      trivial
    | backfill index =>
      simp only [center, fire, Option.map_eq_some_iff] at h
      obtain ⟨node, -, rfl⟩ := h
      exact hsound

theorem initial_sound : (center fold).Sound terms initial := fun _ => trivial

end

end Novbot.Tags
