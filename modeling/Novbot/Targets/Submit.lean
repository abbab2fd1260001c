import Novbot.Targets.Resolve

/-!
# Submitted requests

`check_submit` resolves the target of a request and checks it: it is what the caller expected,
it has nodes and not too many, and its production nodes are confirmed.  A refusal is audited.
Dispatches and schedules are submitted with the list of nodes that it froze.

A request writes rows.  Rows of one transaction are written together, and the sends that
follow a dispatch are not part of this.
-/

namespace Novbot.Targets

open Text Tags

/-! ## Frozen lists -/

/-- A node of a resolution, as far as its id, its state and its tags go. -/
structure NodeHit where
  nodeId : String
  online : Bool
  prod : Bool
  tags : SortedMap String String

structure Frozen where
  selector : Option String
  pickedNodeIds : Option (List String)
  excludedNodeIds : List String
  nodes : List NodeHit
  nodeIds : List String
  prodNodeIds : List String
  resolutionSha256 : String
  prodConfirmed : Bool
  sorted : nodeIds.Pairwise (· < ·)

def hits (connected : String → Bool) (nodes : List InventoryNode) : List NodeHit :=
  nodes.map fun node => ⟨node.nodeId, connected node.nodeId, node.prod, node.tags⟩

/-! ## Rows -/

inductive Row where
  | audit (action targetType targetId : String) (nodeId : Option String) (detail : Json)
  /-- A row of `target_resolutions`. -/
  | resolution (id kind refId : String) (frozen : Frozen) (supersedesId : Option String)
  /-- A row of `dispatch_operations`. -/
  | operation (id specId paramsJson resolutionId : String)
  | pendingDispatch (nodeId runId specId paramsJson : String)
  /-- A row of `dispatch_operation_runs`. -/
  | operationRun (operationId nodeId runId : String)
  /-- A write to the target schedules and to the configs of their nodes. -/
  | schedule (write : Schedules.Write)

def Row.isAudit : Row → Bool
  | .audit _ _ _ _ _ => true
  | _ => false

structure Store where
  rows : List Row
  /-- How many ids were drawn. -/
  drawn : Nat

abbrev Tx := StateM Store

abbrev Submit := ExceptT TargetError Tx

/-- What the requests use of the center. -/
structure Setup where
  inventory : List InventoryNode
  connected : String → Bool
  /-- `sha_of`. -/
  shaOf : List String → String
  uuid : Nat → String
  configs : String → Option Schedules.Config
  print : Json → String

variable (setup : Setup)

def insert (row : Row) : Tx Unit := modify fun store => { store with rows := store.rows ++ [row] }

def newUuid : Tx String := do
  let store ← get
  set { store with drawn := store.drawn + 1 }
  return setup.uuid store.drawn

def texts (ids : List String) : Json := .arr (ids.map .str)

def textOrNull (text : Option String) : Json := (text.map .str).getD .null

/-! ## Checks -/

def freeze (parsed : ParsedTarget) (matched : Matched) (confirm : Option Nat) : Frozen :=
  let nodes := hits setup.connected matched.nodes
  let nodeIds := matched.nodes.map (·.nodeId)
  let prodNodeIds := (nodes.filter (·.prod)).map (·.nodeId)
  ⟨parsed.selector, parsed.picked, parsed.excluded, nodes, nodeIds, prodNodeIds,
    setup.shaOf nodeIds, prodNodeIds ≠ [] && confirm = some prodNodeIds.length, matched.sorted⟩

def refuse (kind targetId code : String) (selector : Option String) (prodNodeIds : List String) :
    Tx Unit :=
  insert (.audit "target.refused" kind targetId none (.obj [("code", .str code),
    ("selector", textOrNull selector), ("prod_node_ids", texts prodNodeIds)]))

/-- A refusal that is audited. -/
def refused (kind targetId code : String) (parsed : ParsedTarget) (frozen : Frozen)
    (error : TargetError) : Submit Unit := do
  refuse kind targetId code parsed.selector frozen.prodNodeIds
  throw error

/-- An error, if the condition holds. -/
def failIf (p : Prop) [Decidable p] (fail : Submit Unit) : Submit Unit :=
  if p then fail else pure ()

def checkExpected (kind targetId : String) (parsed : ParsedTarget) (frozen : Frozen) :
    Submit Unit :=
  match parsed.expected with
  | none => pure ()
  | some expected =>
    let (added, removed) := Schedules.diffIds expected frozen.nodeIds
    failIf (added ≠ [] ∨ removed ≠ [])
      (refused kind targetId "target_changed" parsed frozen (.changed added removed))

def checkSubmit (target : TargetBody) (confirm : Option Nat) (kind targetId : String) :
    Submit Frozen := do
  let parsed ← (parseTarget target : Except _ _)
  let matched ← (resolveParsed setup.inventory parsed : Except _ _)
  let frozen := freeze setup parsed matched confirm
  checkExpected kind targetId parsed frozen
  failIf (frozen.nodeIds = []) (throw .empty)
  failIf (Schedules.maxTargets < frozen.nodeIds.length)
    (refused kind targetId "too_many_targets" parsed frozen .tooMany)
  failIf (frozen.prodNodeIds ≠ [] ∧ frozen.prodConfirmed = false)
    (refused kind targetId "prod_confirmation_required" parsed frozen
      (.prod frozen.prodNodeIds frozen.prodNodeIds.length))
  return frozen

/-! ## Requests -/

def insertResolution (kind refId : String) (frozen : Frozen) (supersedesId : Option String) :
    Tx String := do
  let id ← newUuid setup
  insert (.resolution id kind refId frozen supersedesId)
  insert (.audit "target.resolved" kind refId none (.obj [("resolution_id", .str id),
    ("selector", textOrNull frozen.selector),
    ("picked_node_ids", (frozen.pickedNodeIds.map texts).getD .null),
    ("excluded_node_ids", texts frozen.excludedNodeIds), ("node_ids", texts frozen.nodeIds),
    ("prod_node_ids", texts frozen.prodNodeIds), ("prod_confirmed", .bool frozen.prodConfirmed),
    ("resolution_sha256", .str frozen.resolutionSha256)]))
  return id

structure DispatchRequest where
  target : TargetBody
  specId : String
  params : Option Json
  confirmProd : Option Nat

/-- The rows of one node of a dispatch, and its run. -/
def enqueue (operationId resolutionId specId paramsJson nodeId : String) :
    Tx (String × String) := do
  let runId ← newUuid setup
  insert (.pendingDispatch nodeId runId specId paramsJson)
  insert (.operationRun operationId nodeId runId)
  insert (.audit "dispatch.requested" "node" nodeId (some nodeId)
    (.obj [("operation_id", .str operationId), ("resolution_id", .str resolutionId),
      ("spec_id", .str specId), ("run_id", .str runId)]))
  return (nodeId, runId)

/-- The transaction of a dispatch. -/
def commitDispatch (specId paramsJson : String) (frozen : Frozen) :
    Tx (List (String × String)) := do
  let operationId ← newUuid setup
  let resolutionId ← insertResolution setup "dispatch" operationId frozen none
  insert (.operation operationId specId paramsJson resolutionId)
  frozen.nodeIds.mapM (enqueue setup operationId resolutionId specId paramsJson)

/-- `dispatch_target`, up to its sends. -/
def dispatchTarget (body : DispatchRequest) : Submit (List (String × String)) := do
  let specId := trimmed body.specId
  failIf (specId = "") (throw (.invalid "spec_id is required"))
  let frozen ← checkSubmit setup body.target body.confirmProd "dispatch" specId
  commitDispatch setup specId (setup.print (body.params.getD (.obj []))) frozen

structure CreateScheduleRequest where
  target : TargetBody
  specId : String
  intervalSecs : Option Nat
  cron : Option String
  enabled : Bool
  confirmProd : Option Nat

def numberOrNull (n : Option Nat) : Json := (n.map fun n => .int n).getD .null

/-- The transaction of a schedule. -/
def commitSchedule (body : CreateScheduleRequest) (timing : Schedules.Timing) (frozen : Frozen) :
    Tx String := do
  let id ← newUuid setup
  let resolutionId ← insertResolution setup "schedule" id frozen none
  let create : Schedules.CreateSchedule := ⟨body.specId, body.intervalSecs, body.cron,
    body.enabled, frozen.nodeIds, frozen.sorted.imp ne_of_lt⟩
  let locked := frozen.nodeIds.map fun nodeId => (nodeId, setup.configs nodeId)
  for write in Schedules.createWrites id create timing locked do
    insert (.schedule write)
  insert (.audit "schedule.created" "schedule" id none (.obj [("spec_id", .str (trimmed body.specId)),
    ("interval_secs", numberOrNull timing.intervalSecs), ("cron", textOrNull timing.cron),
    ("enabled", .bool body.enabled), ("resolution_id", .str resolutionId),
    ("added", texts frozen.nodeIds), ("removed", .arr [])]))
  return id

def createSchedule (body : CreateScheduleRequest) : Submit String := do
  failIf (trimmed body.specId = "") (throw (.invalid "spec_id is required"))
  match Schedules.validateTiming body.intervalSecs body.cron with
  | .error message => throw (.timing message)
  | .ok timing =>
    let frozen ← checkSubmit setup body.target body.confirmProd "schedule" (trimmed body.specId)
    commitSchedule setup body timing frozen

/-- The resolution of a pushed group, and the dispatches to its nodes. -/
def commitGroup (frozen : Frozen) (dispatchNamedSkills : List String → Tx Unit) : Tx Unit := do
  let pushId ← newUuid setup
  let _ ← insertResolution setup "dispatch" pushId frozen none
  dispatchNamedSkills frozen.nodeIds

/-- `push_skill_group` and `run_skill_bundle`, with what `dispatch_named_skills` then does for
the frozen nodes. -/
def pushSkillGroup (groupId : String) (target : Option TargetBody) (nodeIds : List String)
    (confirmProd : Option Nat) (dispatchNamedSkills : List String → Tx Unit) : Submit Unit := do
  let target ← (coalesceTarget target nodeIds : Except _ _)
  let frozen ← checkSubmit setup target confirmProd "dispatch" groupId
  commitGroup setup frozen dispatchNamedSkills

/-! ## Runs -/

section
variable {α β : Type} {store store' : Store} {x : Submit α} {f : α → Submit β}

/-- The result of a request and the rows after it. -/
def exec (x : Submit α) (store : Store) : Except TargetError α × Store := x.run.run store

theorem exec_bind (x : Submit α) (f : α → Submit β) (store : Store) :
    exec (x >>= f) store =
      match exec x store with
      | (.ok a, store') => exec (f a) store'
      | (.error e, store') => (.error e, store') := by
  rw [exec, ExceptT.run_bind, StateT.run_bind, exec]
  show (match (x.run.run store : Except TargetError α × Store) with | (result, store') => _) = _
  cases (x.run.run store : Except TargetError α × Store) with
  | mk result store' => cases result <;> rfl

theorem exec_bind_ok {b : β} :
    exec (x >>= f) store = (.ok b, store') ↔
      ∃ a mid, exec x store = (.ok a, mid) ∧ exec (f a) mid = (.ok b, store') := by
  rw [exec_bind]
  cases exec x store with
  | mk result mid => cases result <;> simp

theorem exec_except (x : Except TargetError α) :
    exec (liftM x : Submit α) store = (x, store) := by
  cases x <;> rfl

theorem exec_pure (a : α) : exec (pure a : Submit α) store = (.ok a, store) := rfl

theorem exec_throw (e : TargetError) : exec (throw e : Submit α) store = (.error e, store) := rfl

/-- A refusal, after which only audits were written. -/
def Refuses (x : Submit α) : Prop :=
  ∀ store e store', exec x store = (.error e, store') →
    ∃ audits, store'.rows = store.rows ++ audits ∧ ∀ row ∈ audits, row.isAudit = true

/-- A check writes nothing unless it refuses. -/
structure Checks (x : Submit α) : Prop where
  ok : ∀ {store a store'}, exec x store = (.ok a, store') → store' = store
  refuses : Refuses x

theorem Checks.except (x : Except TargetError α) : Checks (liftM x : Submit α) := by
  constructor
  · intro store a store' h
    rw [exec_except] at h
    exact (Prod.mk.inj h).2.symm
  · intro store e store' h
    rw [exec_except] at h
    obtain ⟨-, rfl⟩ := Prod.mk.inj h
    exact ⟨[], (List.append_nil _).symm, by simp⟩

theorem Checks.pure (a : α) : Checks (Pure.pure a : Submit α) := Checks.except (.ok a)

theorem Checks.throw (e : TargetError) : Checks (throw e : Submit α) := Checks.except (.error e)

theorem Checks.refused (kind targetId code : String) (parsed : ParsedTarget) (frozen : Frozen)
    (error : TargetError) : Checks (refused kind targetId code parsed frozen error) := by
  constructor
  · intro store a store' h
    cases h
  · intro store e store' h
    cases h
    exact ⟨_, rfl, by simp [Row.isAudit]⟩

/-- A transaction after a check does not refuse. -/
theorem Checks.then (hx : Checks x) (hf : ∀ a, Refuses (f a)) : Refuses (x >>= f) := by
  intro store e store' h
  rw [exec_bind] at h
  cases hexec : exec x store with
  | mk result mid =>
    rw [hexec] at h
    cases result with
    | error e' =>
      cases h
      exact hx.refuses _ _ _ hexec
    | ok a =>
      cases hx.ok hexec
      exact hf a _ _ _ h

theorem Checks.bind (hx : Checks x) (hf : ∀ a, Checks (f a)) : Checks (x >>= f) := by
  constructor
  · intro store b store' h
    obtain ⟨a, mid, ha, hb⟩ := exec_bind_ok.mp h
    rw [(hf a).ok hb, hx.ok ha]
  · exact hx.then fun a => (hf a).refuses

theorem Refuses.tx (x : Tx α) : Refuses (liftM x : Submit α) := by
  intro store e store' h
  cases h

end

section
variable {setup} {target : TargetBody} {confirm : Option Nat} {kind targetId : String}

theorem Checks.failIf {p : Prop} [Decidable p] {fail : Submit Unit} (h : Checks fail) :
    Checks (failIf p fail) := by
  rw [Targets.failIf]
  split
  · exact h
  · exact .pure ()

theorem Checks.expected (parsed : ParsedTarget) (frozen : Frozen) :
    Checks (checkExpected kind targetId parsed frozen) := by
  rw [checkExpected]
  split
  · exact .pure ()
  · exact .failIf (.refused _ _ _ _ _ _)

/-- A submit writes nothing but the audit of a refusal. -/
theorem checks_checkSubmit (target : TargetBody) (confirm : Option Nat) (kind targetId : String) :
    Checks (checkSubmit setup target confirm kind targetId) :=
  .bind (.except _) fun _ => .bind (.except _) fun _ => .bind (.expected _ _) fun _ =>
    .bind (.failIf (.throw _)) fun _ => .bind (.failIf (.refused _ _ _ _ _ _)) fun _ =>
      .bind (.failIf (.refused _ _ _ _ _ _)) fun _ => .pure _

theorem refuses_dispatchTarget (body : DispatchRequest) : Refuses (dispatchTarget setup body) :=
  Checks.then (.failIf (.throw _)) fun _ =>
    (checks_checkSubmit _ _ _ _).then fun _ => .tx _

theorem refuses_createSchedule (body : CreateScheduleRequest) :
    Refuses (createSchedule setup body) := by
  refine Checks.then (.failIf (.throw _)) fun _ => ?_
  split
  · exact (Checks.throw _).refuses
  · exact (checks_checkSubmit _ _ _ _).then fun _ => .tx _

theorem refuses_pushSkillGroup (groupId : String) (target : Option TargetBody)
    (nodeIds : List String) (confirmProd : Option Nat) (dispatchNamedSkills : List String → Tx Unit) :
    Refuses (pushSkillGroup setup groupId target nodeIds confirmProd dispatchNamedSkills) :=
  Checks.then (.except _) fun _ => (checks_checkSubmit _ _ _ _).then fun _ => .tx _

/-! ## What passes -/

theorem failIf_ok {p : Prop} [Decidable p] {fail : Submit Unit} {store store' : Store}
    (hfail : ∀ store', exec fail store ≠ (.ok (), store'))
    (h : exec (failIf p fail) store = (.ok (), store')) : ¬ p ∧ store' = store := by
  rw [failIf] at h
  split at h
  · exact absurd h (hfail store')
  · next hp => exact ⟨hp, (Prod.mk.inj h).2.symm⟩

theorem diffIds_eq_nil {expected live : List String} (hexpected : expected.Pairwise (· < ·))
    (hlive : live.Pairwise (· < ·)) (h : Schedules.diffIds expected live = ([], [])) :
    live = expected := by
  obtain ⟨hadded, hremoved⟩ := Prod.mk.inj h
  simp only [List.filter_eq_nil_iff, Bool.not_eq_true', Bool.not_eq_false,
    List.contains_iff_mem] at hadded hremoved
  have hnodup : ∀ {l : List String}, l.Pairwise (· < ·) → l.Nodup := fun hl => hl.imp ne_of_lt
  have hperm : live.Perm expected :=
    (List.perm_ext_iff_of_nodup (hnodup hlive) (hnodup hexpected)).mpr fun id =>
      ⟨hadded id, hremoved id⟩
  exact hperm.eq_of_pairwise (fun a b _ _ hab hba => absurd (hab.trans hba) (lt_irrefl a))
    hlive hexpected

/-- The checks that a submitted list passed. -/
theorem checkSubmit_ok {frozen : Frozen} {store store' : Store}
    (h : exec (checkSubmit setup target confirm kind targetId) store = (.ok frozen, store')) :
    ∃ parsed matched, parseTarget target = .ok parsed ∧
      resolveParsed setup.inventory parsed = .ok matched ∧
      frozen = freeze setup parsed matched confirm ∧
      (∀ expected, parsed.expected = some expected →
        Schedules.diffIds expected frozen.nodeIds = ([], [])) ∧
      frozen.nodeIds ≠ [] ∧ frozen.nodeIds.length ≤ Schedules.maxTargets ∧
      (frozen.prodNodeIds ≠ [] → frozen.prodConfirmed = true) := by
  have hrefused : ∀ {code parsed frozen error store store'},
      exec (refused kind targetId code parsed frozen error) store ≠ (.ok (), store') :=
    fun h => by cases h
  rw [checkSubmit] at h
  obtain ⟨parsed, _, hparsed, h⟩ := exec_bind_ok.mp h
  obtain ⟨matched, _, hmatched, h⟩ := exec_bind_ok.mp h
  obtain ⟨_, _, hexpected, h⟩ := exec_bind_ok.mp h
  obtain ⟨_, _, hempty, h⟩ := exec_bind_ok.mp h
  obtain ⟨_, _, hsize, h⟩ := exec_bind_ok.mp h
  obtain ⟨_, _, hprod, h⟩ := exec_bind_ok.mp h
  rw [exec_except] at hparsed hmatched
  rw [exec_pure] at h
  obtain ⟨hfrozen, -⟩ := Prod.mk.inj h
  cases hfrozen
  obtain ⟨hempty, -⟩ := failIf_ok (fun _ h => by cases h) hempty
  obtain ⟨hsize, -⟩ := failIf_ok (fun _ => hrefused) hsize
  obtain ⟨hprod, -⟩ := failIf_ok (fun _ => hrefused) hprod
  refine ⟨parsed, matched, (Prod.mk.inj hparsed).1, (Prod.mk.inj hmatched).1, rfl, ?_, hempty,
    not_lt.mp hsize, fun hne => by simpa [hne] using hprod⟩
  intro expected hsome
  rw [checkExpected, hsome] at hexpected
  obtain ⟨hdiff, -⟩ := failIf_ok (fun _ => hrefused) hexpected
  rw [not_or, not_not, not_not] at hdiff
  exact Prod.ext hdiff.1 hdiff.2

/-! ## Submitted lists -/

/-- What a request may act on: the nodes that its target matches, as expected, not too many, and
confirmed as far as there are production nodes. -/
structure Confirmed (inventory : List InventoryNode) (target : TargetBody) (confirm : Option Nat)
    (frozen : Frozen) : Prop where
  sorted : frozen.nodeIds.Pairwise (· < ·)
  nodup : frozen.nodeIds.Nodup
  targeted : ∀ id, id ∈ frozen.nodeIds ↔ Targeted inventory target id
  nonempty : frozen.nodeIds ≠ []
  limit : frozen.nodeIds.length ≤ Schedules.maxTargets
  expected : ∀ expected, target.expectedNodeIds = some expected →
    frozen.nodeIds = Schedules.sortedUnique expected
  known : frozen.nodes.map (·.nodeId) = frozen.nodeIds ∧ ∀ hit ∈ frozen.nodes,
    ∃ node ∈ inventory, hit.nodeId = node.nodeId ∧ hit.prod = node.prod ∧ hit.tags = node.tags
  production : frozen.prodNodeIds = (frozen.nodes.filter (·.prod)).map (·.nodeId)
  confirmed : frozen.prodNodeIds ≠ [] → confirm = some frozen.prodNodeIds.length

/-- The list of a target that is parsed and resolved, before it is checked. -/
theorem freeze_targeted {confirm : Option Nat} {parsed : ParsedTarget} {matched : Matched}
    (hparsed : parseTarget target = .ok parsed)
    (hmatched : resolveParsed setup.inventory parsed = .ok matched) :
    (freeze setup parsed matched confirm).nodeIds.Nodup ∧
      (freeze setup parsed matched confirm).nodeIds.Pairwise (· < ·) ∧
      ∀ id, id ∈ (freeze setup parsed matched confirm).nodeIds ↔
        Targeted setup.inventory target id :=
  ⟨matched.sorted.imp ne_of_lt, matched.sorted, fun _ => mem_resolveParsed hparsed hmatched⟩

theorem confirmed_of_checkSubmit {frozen : Frozen} {store store' : Store}
    (h : exec (checkSubmit setup target confirm kind targetId) store = (.ok frozen, store')) :
    Confirmed setup.inventory target confirm frozen := by
  obtain ⟨parsed, matched, hparsed, hmatched, rfl, hdiff, hempty, hsize, hprod⟩ := checkSubmit_ok h
  obtain ⟨hnodup, hsorted, htargeted⟩ := @freeze_targeted _ _ confirm _ _ hparsed hmatched
  obtain ⟨-, hexpected, -⟩ := parseTarget_ok hparsed
  constructor
  · exact hsorted
  · exact hnodup
  · exact htargeted
  · exact hempty
  · exact hsize
  · intro expected hsome
    rw [hsome] at hexpected
    exact diffIds_eq_nil (sortedUnique_sorted expected) hsorted (hdiff _ hexpected)
  · refine ⟨by simp [freeze, hits], fun hit hhit => ?_⟩
    obtain ⟨node, hnode, rfl⟩ := List.mem_map.mp hhit
    exact ⟨node, known_of_resolveParsed hmatched node hnode, rfl, rfl, rfl⟩
  · rfl
  · intro hne
    have hconfirmed := hprod hne
    simp only [freeze, Bool.and_eq_true, decide_eq_true_eq] at hconfirmed
    exact hconfirmed.2

/-- A target is resolved to the known nodes that it matches, in order and each once.  What a
submit lets through is confirmed, and a request that is refused has written at most the audit
of its refusal. -/
theorem submits_confirmed (setup : Setup) :
    (∀ target parsed matched confirm, parseTarget target = .ok parsed →
      resolveParsed setup.inventory parsed = .ok matched →
      (freeze setup parsed matched confirm).nodeIds.Nodup ∧
        (freeze setup parsed matched confirm).nodeIds.Pairwise (· < ·) ∧
        ∀ id, id ∈ (freeze setup parsed matched confirm).nodeIds ↔
          Targeted setup.inventory target id) ∧
    (∀ target confirm kind targetId store frozen store',
      exec (checkSubmit setup target confirm kind targetId) store = (.ok frozen, store') →
        Confirmed setup.inventory target confirm frozen) ∧
    (∀ target confirm kind targetId, Checks (checkSubmit setup target confirm kind targetId)) ∧
    (∀ body, Refuses (dispatchTarget setup body)) ∧
    (∀ body, Refuses (createSchedule setup body)) ∧
    (∀ groupId target nodeIds confirmProd dispatchNamedSkills,
      Refuses (pushSkillGroup setup groupId target nodeIds confirmProd dispatchNamedSkills)) :=
  ⟨fun _ _ _ _ => freeze_targeted, fun _ _ _ _ _ _ _ => confirmed_of_checkSubmit,
    checks_checkSubmit, refuses_dispatchTarget, refuses_createSchedule, refuses_pushSkillGroup⟩

/-- Two nodes, one of them in production. -/
def fleet : Setup where
  inventory := [⟨"web-2", .ofList [("env", "dev")], false⟩, ⟨"web-1", .ofList [("env", "prod")], true⟩]
  connected _ := true
  shaOf _ := ""
  uuid _ := ""
  configs _ := none
  print _ := ""

def idle : Store := ⟨[], 0⟩

theorem submits_confirmed_fleet : ∃ frozen store',
    exec (checkSubmit fleet ⟨some "env in (test,prod)", none, [], none⟩ (some 1) "dispatch" "ping")
      idle = (.ok frozen, store') ∧
    Confirmed fleet.inventory ⟨some "env in (test,prod)", none, [], none⟩ (some 1) frozen := by
  have hok : (exec (checkSubmit fleet ⟨some "env in (test,prod)", none, [], none⟩ (some 1)
      "dispatch" "ping") idle).1.isOk = true := by decide +kernel
  cases hexec : exec (checkSubmit fleet ⟨some "env in (test,prod)", none, [], none⟩ (some 1)
      "dispatch" "ping") idle with
  | mk result store' =>
    rw [hexec] at hok
    cases result with
    | error e => cases hok
    | ok frozen =>
      exact ⟨frozen, store', rfl, (submits_confirmed fleet).2.1 _ _ _ _ _ _ _ hexec⟩

/-- Without production nodes any confirmation passes. -/
theorem unneeded_confirmation_passes : ¬ ∀ setup target confirm kind targetId store frozen store',
    exec (checkSubmit setup target confirm kind targetId) store = (.ok frozen, store') →
      confirm = some frozen.prodNodeIds.length := by
  intro h
  have hok : (exec (checkSubmit fleet ⟨none, some ["web-2"], [], none⟩ (some 7)
      "dispatch" "ping") idle).1.toOption.map (·.prodNodeIds) = some [] := by decide +kernel
  cases hexec : exec (checkSubmit fleet ⟨none, some ["web-2"], [], none⟩ (some 7)
      "dispatch" "ping") idle with
  | mk result store' =>
    rw [hexec] at hok
    cases result with
    | error e => cases hok
    | ok frozen =>
      have hcount := h _ _ _ _ _ _ _ _ hexec
      have hnone : frozen.prodNodeIds = [] := Option.some.inj hok
      rw [hnone] at hcount
      cases hcount

end

end Novbot.Targets
