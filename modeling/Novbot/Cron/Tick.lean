import Novbot.Control.Op
import Novbot.Cron.Due

/-!
# A tick of the scheduler

`run_due` of the node: what is due is marked as run first, and executed and reported then.  A
report that can be neither sent nor spooled ends the tick, as a panic does, and what is marked
after it is not executed (`tick_consumes_iff`).  What is due is computed before anything is
marked, so a spec that two schedules name is executed twice (`tick_once_iff`).
-/

namespace Novbot.Cron

open Config
open Control (ReportResultRequest PendingReport)

/-! ## The code -/

/-- What a tick meets on its node, at each place of its list. -/
structure Env where
  nodeId : String
  runId : Nat → String
  observedAt : Nat → Int
  print : Json → String
  /-- `execute_spec`.  Nothing comes back from a panic. -/
  execute : Nat → Spec → Option (String × Json)
  /-- `try_send`: there is a session that takes the report. -/
  takes : Nat → Bool
  /-- `RetrySpool::enqueue` succeeds. -/
  writes : Nat → Bool

inductive Delivery where
  | sent (report : ReportResultRequest)
  | spooled (item : PendingReport)

def Delivery.report : Delivery → ReportResultRequest
  | .sent report => report
  | .spooled item => item.report

/-- An execution, what it leaves in `last_result.json`, and what became of its report. -/
structure Ran where
  spec : Spec
  egress : Option Json
  delivery : Option Delivery

def sendReportOrSpool (env : Env) (i : Nat) (report : ReportResultRequest) : Option Delivery :=
  if env.takes i then some (.sent report)
  else if env.writes i then some (.spooled ⟨report, 1⟩)
  else none

/-- The loop of `run_due`. -/
def runSpecs (env : Env) : Nat → List Spec → List Ran
  | _, [] => []
  | i, spec :: specs =>
    match env.execute i spec with
    | none => [⟨spec, none, none⟩]
    | some (status, payload) =>
      let egress := Json.obj [("node_id", .str env.nodeId),
        ("observed_at_unix_ms", .int (env.observedAt i)), ("payload", payload),
        ("run_id", .str (env.runId i)), ("spec_id", .str spec.id), ("status", .str status)]
      match sendReportOrSpool env i
          ⟨env.nodeId, env.runId i, spec.id, status, env.print payload, env.observedAt i⟩ with
      | none => [⟨spec, some egress, none⟩]
      | some delivery => ⟨spec, some egress, some delivery⟩ :: runSpecs env (i + 1) specs

/-- A tick: what is executed, and what is marked as run. -/
def tick (env : Env) (state : RuntimeState) (lastRun : LastRun) (now : UInt64) :
    List Ran × LastRun :=
  let (specs, lastRun) := runDue state lastRun now
  (runSpecs env 0 specs, lastRun)

/-! ## The loop -/

/-- The spec at a place is executed to its end and its report finds a taker. -/
def Env.Handles (env : Env) (i : Nat) (spec : Spec) : Prop :=
  (env.execute i spec).isSome = true ∧ (env.takes i || env.writes i) = true

/-- The result of a spec is on its way. -/
def Ran.Reported (env : Env) (i : Nat) (ran : Ran) : Prop :=
  ∃ status payload delivery, env.execute i ran.spec = some (status, payload) ∧
    ran.delivery = some delivery ∧ delivery.report =
      ⟨env.nodeId, env.runId i, ran.spec.id, status, env.print payload, env.observedAt i⟩

section

variable {env : Env}

theorem sendReportOrSpool_some {i : Nat} {report : ReportResultRequest}
    (h : (env.takes i || env.writes i) = true) :
    ∃ delivery, sendReportOrSpool env i report = some delivery ∧ delivery.report = report := by
  rw [sendReportOrSpool]
  cases htakes : env.takes i with
  | true => exact ⟨_, rfl, rfl⟩
  | false =>
    rw [htakes, Bool.false_or] at h
    rw [if_neg Bool.false_ne_true, if_pos h]
    exact ⟨_, rfl, rfl⟩

theorem sendReportOrSpool_none {i : Nat} {report : ReportResultRequest}
    (h : ¬ (env.takes i || env.writes i) = true) : sendReportOrSpool env i report = none := by
  rw [Bool.not_eq_true, Bool.or_eq_false_iff] at h
  rw [sendReportOrSpool, h.1, h.2, if_neg Bool.false_ne_true, if_neg Bool.false_ne_true]

theorem runSpecs_handled {i : Nat} {spec : Spec} {specs : List Spec} (h : env.Handles i spec) :
    ∃ ran, runSpecs env i (spec :: specs) = ran :: runSpecs env (i + 1) specs ∧
      ran.spec = spec ∧ ran.Reported env i := by
  obtain ⟨⟨status, payload⟩, hexecute⟩ := Option.isSome_iff_exists.mp h.1
  obtain ⟨delivery, hdelivery, hreport⟩ := @sendReportOrSpool_some env i
    ⟨env.nodeId, env.runId i, spec.id, status, env.print payload, env.observedAt i⟩ h.2
  rw [runSpecs, hexecute]
  dsimp only
  rw [hdelivery]
  exact ⟨_, rfl, rfl, status, payload, delivery, hexecute, rfl, hreport⟩

theorem runSpecs_unhandled {i : Nat} {spec : Spec} {specs : List Spec}
    (h : ¬ env.Handles i spec) :
    ∃ egress, runSpecs env i (spec :: specs) = [⟨spec, egress, none⟩] := by
  rw [runSpecs]
  cases hexecute : env.execute i spec with
  | none => exact ⟨none, rfl⟩
  | some outcome =>
    have hlost : ¬ (env.takes i || env.writes i) = true :=
      fun htaken => h ⟨by rw [hexecute]; rfl, htaken⟩
    obtain ⟨status, payload⟩ := outcome
    dsimp only
    rw [sendReportOrSpool_none hlost]
    exact ⟨_, rfl⟩

/-- What is executed is a beginning of the list, and the reports are about it in order. -/
theorem runSpecs_executes (i : Nat) (specs : List Spec) :
    (runSpecs env i specs).map (·.spec) <+: specs ∧
      ∀ k ran, (runSpecs env i specs)[k]? = some ran →
        (ran.delivery.isSome = true ↔ env.Handles (i + k) ran.spec) ∧
        (env.Handles (i + k) ran.spec → ran.Reported env (i + k)) := by
  induction specs generalizing i with
  | nil => exact ⟨List.nil_prefix, fun k ran hran => by cases hran⟩
  | cons spec specs ih =>
    by_cases hhandled : env.Handles i spec
    · obtain ⟨first, hrun, rfl, hreported⟩ := runSpecs_handled hhandled
      obtain ⟨hbefore, hreports⟩ := ih (i + 1)
      rw [hrun]
      refine ⟨List.cons_prefix_cons.mpr ⟨rfl, hbefore⟩, fun k ran hran => ?_⟩
      cases k with
      | zero =>
        cases hran
        obtain ⟨-, -, delivery, -, hdelivery, -⟩ := id hreported
        exact ⟨⟨fun _ => hhandled, fun _ => by rw [hdelivery]; rfl⟩, fun _ => hreported⟩
      | succ k =>
        have hplace : i + (k + 1) = i + 1 + k := by omega
        rw [hplace]
        exact hreports k ran hran
    · obtain ⟨egress, hrun⟩ := runSpecs_unhandled hhandled
      rw [hrun]
      refine ⟨List.cons_prefix_cons.mpr ⟨rfl, List.nil_prefix⟩, fun k ran hran => ?_⟩
      cases k with
      | zero =>
        cases hran
        exact ⟨⟨fun hsome => absurd hsome Bool.false_ne_true, fun hh => absurd hh hhandled⟩,
          fun hh => absurd hh hhandled⟩
      | succ k => cases hran

/-- Everything is executed exactly when nothing but the last spec is lost. -/
theorem runSpecs_all_iff (i : Nat) (specs : List Spec) :
    (runSpecs env i specs).map (·.spec) = specs ↔
      ∀ k spec, specs[k]? = some spec → k + 1 < specs.length → env.Handles (i + k) spec := by
  induction specs generalizing i with
  | nil => exact iff_of_true rfl fun k spec hspec => by cases hspec
  | cons spec specs ih =>
    by_cases hhandled : env.Handles i spec
    · obtain ⟨first, hrun, hfirst, -⟩ := runSpecs_handled hhandled
      rw [hrun, List.map_cons, hfirst, List.cons_inj_right, ih (i + 1)]
      constructor
      · intro hrest k other hother hlength
        cases k with
        | zero =>
          cases hother
          exact hhandled
        | succ k =>
          have hplace : i + (k + 1) = i + 1 + k := by omega
          rw [hplace]
          exact hrest k other hother (Nat.lt_of_succ_lt_succ hlength)
      · intro hall k other hother hlength
        have hplace : i + 1 + k = i + (k + 1) := by omega
        rw [hplace]
        exact hall (k + 1) other hother (Nat.succ_lt_succ hlength)
    · obtain ⟨egress, hrun⟩ := runSpecs_unhandled hhandled
      rw [hrun, List.map_singleton, List.cons_inj_right]
      constructor
      · rintro rfl k other hother hlength
        exact absurd hlength (Nat.not_lt_of_le (Nat.succ_le_succ (Nat.zero_le k)))
      · intro hall
        cases specs with
        | nil => rfl
        | cons other specs =>
          exact absurd (hall 0 spec rfl (Nat.succ_lt_succ (Nat.succ_pos _))) hhandled

end

/-! ## Marking -/

section

variable (state : RuntimeState) (lastRun : LastRun) (now : UInt64)

/-- What a tick marks as run: the due specs that are configured. -/
def marked : List String :=
  (dueSpecs state.schedules lastRun now).filter fun id => (state.specs.lookup id).isSome

theorem foldl_selectSpec_eq (specs : SortedMap String Spec) (now : Nat) (ids : List String)
    (selected : List Spec × LastRun) :
    ids.foldl (selectSpec specs now) selected =
      (selected.1 ++ ids.filterMap specs.lookup,
        (ids.filter fun id => (specs.lookup id).isSome).foldl (·.insert · now) selected.2) := by
  induction ids generalizing selected with
  | nil => simp
  | cons id ids ih =>
    rw [List.foldl_cons, ih, List.filterMap_cons, List.filter_cons, selectSpec]
    cases specs.lookup id with
    | none => rfl
    | some spec => simp

/-- What is marked is what the loop gets. -/
theorem runDue_eq : runDue state lastRun now =
    ((marked state lastRun now).filterMap state.specs.lookup,
      (marked state lastRun now).foldl (·.insert · now.toNat) lastRun) := by
  rw [runDue, foldl_selectSpec_eq, marked, List.filterMap_filter, List.nil_append]
  congr 1
  refine List.filterMap_congr fun id _ => ?_
  cases state.specs.lookup id <;> rfl

variable {state lastRun now}

theorem isSome_of_marked {id : String} (h : id ∈ marked state lastRun now) :
    (state.specs.lookup id).isSome = true :=
  (List.mem_filter.mp h).2

/-- The specs of what is marked, place by place. -/
theorem getElem?_filterMap_lookup {ids : List String} {specs : SortedMap String Spec}
    (h : ∀ id ∈ ids, (specs.lookup id).isSome = true) (i : Nat) :
    (ids.filterMap specs.lookup)[i]? = ids[i]?.bind specs.lookup := by
  induction ids generalizing i with
  | nil => rfl
  | cons id ids ih =>
    obtain ⟨spec, hspec⟩ := Option.isSome_iff_exists.mp (h id List.mem_cons_self)
    rw [List.filterMap_cons_some hspec]
    cases i with
    | zero =>
      rw [List.getElem?_cons_zero, List.getElem?_cons_zero, Option.bind_some, hspec]
    | succ i =>
      rw [List.getElem?_cons_succ, List.getElem?_cons_succ]
      exact ih (fun other hother => h other (.tail _ hother)) i

theorem length_filterMap_lookup {ids : List String} {specs : SortedMap String Spec}
    (h : ∀ id ∈ ids, (specs.lookup id).isSome = true) :
    (ids.filterMap specs.lookup).length = ids.length := by
  induction ids with
  | nil => rfl
  | cons id ids ih =>
    obtain ⟨spec, hspec⟩ := Option.isSome_iff_exists.mp (h id List.mem_cons_self)
    rw [List.filterMap_cons_some hspec, List.length_cons, List.length_cons,
      ih fun other hother => h other (.tail _ hother)]

end

/-! ## What is consumed -/

/-- Every firing that a tick marks is executed, and its result is sent or spooled where that is
owed. -/
def Consumes (env : Env) (owed : Nat → Spec → Prop) (state : RuntimeState) (lastRun : LastRun)
    (now : UInt64) : Prop :=
  ∀ i id, (marked state lastRun now)[i]? = some id →
    ∃ spec ran, state.specs.lookup id = some spec ∧ (tick env state lastRun now).1[i]? = some ran ∧
      ran.spec = spec ∧ (owed i spec → ran.Reported env i)

section

variable {env : Env} {state : RuntimeState} {lastRun : LastRun} {now : UInt64}

theorem tick_executions : (tick env state lastRun now).1 =
    runSpecs env 0 ((marked state lastRun now).filterMap state.specs.lookup) := by
  rw [tick, runDue_eq]

theorem getElem?_marked {i : Nat} {spec : Spec} :
    ((marked state lastRun now).filterMap state.specs.lookup)[i]? = some spec ↔
      ∃ id, (marked state lastRun now)[i]? = some id ∧ state.specs.lookup id = some spec := by
  rw [getElem?_filterMap_lookup fun id hid => isSome_of_marked hid, Option.bind_eq_some_iff]

/-- Every firing that is marked is executed exactly when the list is. -/
theorem executes_iff : (∀ (i : Nat) (id : String), (marked state lastRun now)[i]? = some id →
    ∃ (spec : Spec) (ran : Ran), state.specs.lookup id = some spec ∧ (tick env state lastRun now).1[i]? = some ran ∧
      ran.spec = spec) ↔
    (tick env state lastRun now).1.map (·.spec) =
      (marked state lastRun now).filterMap state.specs.lookup := by
  have hlength : ((marked state lastRun now).filterMap state.specs.lookup).length =
      (marked state lastRun now).length :=
    length_filterMap_lookup fun id hid => isSome_of_marked hid
  rw [tick_executions]
  obtain ⟨hbefore, -⟩ := @runSpecs_executes env 0
    ((marked state lastRun now).filterMap state.specs.lookup)
  constructor
  · intro hall
    refine hbefore.eq_of_length_le ?_
    by_contra hshort
    rw [List.length_map, hlength, Nat.not_le] at hshort
    obtain ⟨spec, ran, -, hran, -⟩ := hall _ _ (List.getElem?_eq_getElem hshort)
    rw [List.getElem?_eq_none (Nat.le_refl _)] at hran
    cases hran
  · intro hsame i id hid
    obtain ⟨spec, hspec⟩ := Option.isSome_iff_exists.mp (isSome_of_marked (List.mem_of_getElem? hid))
    have hplace := getElem?_marked.mpr ⟨id, hid, hspec⟩
    rw [← hsame, List.getElem?_map] at hplace
    obtain ⟨ran, hran, heq⟩ := Option.map_eq_some_iff.mp hplace
    exact ⟨spec, ran, hspec, hran, heq⟩

/-- What a tick marks is executed exactly when nothing but the last firing is lost, and all results
are on their way exactly when none is. -/
theorem tick_consumes_iff :
    (tick env state lastRun now).2 =
      (marked state lastRun now).foldl (·.insert · now.toNat) lastRun ∧
    (Consumes env env.Handles state lastRun now ↔
      ∀ i id spec, (marked state lastRun now)[i]? = some id → state.specs.lookup id = some spec →
        i + 1 < (marked state lastRun now).length → env.Handles i spec) ∧
    (Consumes env (fun _ _ => True) state lastRun now ↔
      ∀ i id spec, (marked state lastRun now)[i]? = some id → state.specs.lookup id = some spec →
        env.Handles i spec) := by
  have hlength : ((marked state lastRun now).filterMap state.specs.lookup).length =
      (marked state lastRun now).length :=
    length_filterMap_lookup fun id hid => isSome_of_marked hid
  obtain ⟨-, hreports⟩ := @runSpecs_executes env 0
    ((marked state lastRun now).filterMap state.specs.lookup)
  rw [← tick_executions] at hreports
  have hexecutes : (∀ (i : Nat) (id : String), (marked state lastRun now)[i]? = some id →
      ∃ (spec : Spec) (ran : Ran), state.specs.lookup id = some spec ∧ (tick env state lastRun now).1[i]? = some ran ∧
        ran.spec = spec) ↔
      ∀ i id spec, (marked state lastRun now)[i]? = some id → state.specs.lookup id = some spec →
        i + 1 < (marked state lastRun now).length → env.Handles i spec := by
    rw [executes_iff, tick_executions, runSpecs_all_iff, hlength]
    simp only [Nat.zero_add, getElem?_marked]
    constructor
    · exact fun hall i id spec hid hspec hi => hall i spec ⟨id, hid, hspec⟩ hi
    · rintro hall i spec ⟨id, hid, hspec⟩ hi
      exact hall i id spec hid hspec hi
  refine ⟨by rw [tick, runDue_eq], ?_, ?_⟩
  · rw [← hexecutes]
    constructor
    · intro hconsumes i id hid
      obtain ⟨spec, ran, hspec, hran, heq, -⟩ := hconsumes i id hid
      exact ⟨spec, ran, hspec, hran, heq⟩
    · intro hall i id hid
      obtain ⟨spec, ran, hspec, hran, rfl⟩ := hall i id hid
      refine ⟨ran.spec, ran, hspec, hran, rfl, fun hhandles => ?_⟩
      have hreported := (hreports i ran hran).2
      rw [Nat.zero_add] at hreported
      exact hreported hhandles
  · constructor
    · intro hconsumes i id spec hid hspec
      obtain ⟨spec', ran, hspec', hran, rfl, hreported⟩ := hconsumes i id hid
      obtain ⟨-, -, delivery, -, hdelivery, -⟩ := hreported trivial
      cases hspec.symm.trans hspec'
      have hhandles := (hreports i ran hran).1.mp (by rw [hdelivery]; rfl)
      rwa [Nat.zero_add] at hhandles
    · intro hall i id hid
      obtain ⟨spec, ran, hspec, hran, rfl⟩ :=
        hexecutes.mpr (fun i id spec hid hspec _ => hall i id spec hid hspec) i id hid
      refine ⟨ran.spec, ran, hspec, hran, rfl, fun _ => ?_⟩
      have hreported := (hreports i ran hran).2
      rw [Nat.zero_add] at hreported
      exact hreported (hall i id ran.spec hid hspec)

end

/-! ### A full disk -/

def diskSpec : Spec := ⟨"disk", .disk, .obj [], none⟩

def minutely (id : String) : Schedule := ⟨id, some 60, none, true⟩

/-- Two specs, each due every minute. -/
def busyState : RuntimeState where
  specs := .ofList [("load", loadSpec), ("disk", diskSpec)]
  schedules := [minutely "load", minutely "disk"]
  configGeneration := 1
  configLoaded := true

/-- A node without a session, whose spool takes no line. -/
def fullDisk : Env where
  nodeId := "node-1"
  runId i := "run-" ++ toString i
  observedAt _ := 0
  print _ := "null"
  execute _ _ := some ("ok", .null)
  takes _ := false
  writes _ := false

/-- The second spec is marked and not executed. -/
theorem due_consumed :
    ¬ ∀ env state lastRun now, Consumes env env.Handles state lastRun now := by
  intro hall
  obtain ⟨spec, ran, -, hran, -⟩ := hall fullDisk busyState .empty 60 1 "disk" (by decide +kernel)
  have hnone : (tick fullDisk busyState .empty 60).1[1]? = none := by
    rw [List.getElem?_eq_none_iff]
    decide +kernel
  rw [hnone] at hran
  cases hran

/-! ## What is run once -/

/-- A tick executes each spec at most once, and an executed spec whose report finds a taker is
reported once. -/
structure RunsOnce (env : Env) (state : RuntimeState) (lastRun : LastRun) (now : UInt64) :
    Prop where
  executed : ((tick env state lastRun now).1.map (·.spec.id)).Nodup
  reported : (((tick env state lastRun now).1.filterMap (·.delivery)).map (·.report.specId)).Nodup
  delivered : ∀ i ran, (tick env state lastRun now).1[i]? = some ran → env.Handles i ran.spec →
    ran.Reported env i

/-- A schedule is due, for a spec that is configured. -/
def Schedule.Ready (state : RuntimeState) (lastRun : LastRun) (now : UInt64) (s : Schedule) :
    Prop :=
  s.enabled = true ∧ scheduleDue s lastRun now = true ∧ (state.specs.lookup s.specId).isSome = true

section

variable {state : RuntimeState} {lastRun : LastRun} {now : UInt64}

/-- A spec is marked once exactly when one of its schedules at most is due. -/
theorem nodup_marked_iff : (marked state lastRun now).Nodup ↔
    state.schedules.Pairwise fun s other => Schedule.Ready state lastRun now s →
      Schedule.Ready state lastRun now other → s.specId ≠ other.specId := by
  rw [marked, dueSpecs, List.filter_map, List.Nodup, List.pairwise_map, List.filter_filter,
    List.pairwise_filter]
  simp only [Function.comp_apply, Bool.and_eq_true, Schedule.Ready, and_imp]
  constructor
  · exact fun h => h.imp fun hne hena hdue hconf hena' hdue' hconf' =>
      hne hconf hena hdue hconf' hena' hdue'
  · exact fun h => h.imp fun hne hconf hena hdue hconf' hena' hdue' =>
      hne hena hdue hconf hena' hdue' hconf'

theorem map_id_lookup (hkeyed : ∀ id spec, state.specs.lookup id = some spec → spec.id = id)
    {ids : List String} (h : ∀ id ∈ ids, (state.specs.lookup id).isSome = true) :
    (ids.filterMap state.specs.lookup).map (·.id) = ids := by
  induction ids with
  | nil => rfl
  | cons id ids ih =>
    obtain ⟨spec, hspec⟩ := Option.isSome_iff_exists.mp (h id List.mem_cons_self)
    rw [List.filterMap_cons_some hspec, List.map_cons, hkeyed id spec hspec,
      ih fun other hother => h other (.tail _ hother)]

theorem reports_sublist (env : Env) (i : Nat) (specs : List Spec) :
    (((runSpecs env i specs).filterMap (·.delivery)).map (·.report.specId)).Sublist
      ((runSpecs env i specs).map (·.spec.id)) := by
  induction specs generalizing i with
  | nil => exact .slnil
  | cons spec specs ih =>
    by_cases hhandled : env.Handles i spec
    · obtain ⟨ran, hrun, -, hreported⟩ := runSpecs_handled hhandled
      obtain ⟨status, payload, delivery, -, hdelivery, hreport⟩ := hreported
      rw [hrun, List.filterMap_cons_some hdelivery, List.map_cons, List.map_cons, hreport]
      exact (ih (i + 1)).cons_cons _
    · obtain ⟨egress, hrun⟩ := runSpecs_unhandled hhandled
      rw [hrun]
      exact List.nil_sublist _

/-- A node with a session that takes every report. -/
def calm : Env where
  nodeId := "node-1"
  runId i := "run-" ++ toString i
  observedAt _ := 0
  print _ := "null"
  execute _ _ := some ("ok", .null)
  takes _ := true
  writes _ := true

/-- A tick runs each spec once, whatever it meets, exactly when no two due schedules name one
spec. -/
theorem tick_once_iff (hkeyed : ∀ id spec, state.specs.lookup id = some spec → spec.id = id) :
    (∀ env, RunsOnce env state lastRun now) ↔
      state.schedules.Pairwise fun s other => Schedule.Ready state lastRun now s →
        Schedule.Ready state lastRun now other → s.specId ≠ other.specId := by
  have hids : ((marked state lastRun now).filterMap state.specs.lookup).map (·.id) =
      marked state lastRun now := map_id_lookup hkeyed fun id hid => isSome_of_marked hid
  rw [← nodup_marked_iff]
  constructor
  · intro hall
    have hexecuted := (hall calm).executed
    have heverything : (tick calm state lastRun now).1.map (·.spec) =
        (marked state lastRun now).filterMap state.specs.lookup := by
      rw [tick_executions]
      exact (runSpecs_all_iff 0 _).mpr fun k spec _ _ => ⟨rfl, rfl⟩
    rw [← hids, ← heverything, List.map_map]
    exact hexecuted
  · intro hnodup env
    obtain ⟨hbefore, hreports⟩ := @runSpecs_executes env 0
      ((marked state lastRun now).filterMap state.specs.lookup)
    have hexecuted : ((tick env state lastRun now).1.map (·.spec.id)).Nodup := by
      have hsublist := hbefore.sublist.map (·.id)
      rw [hids, List.map_map, ← tick_executions] at hsublist
      exact hnodup.sublist hsublist
    constructor
    case executed => exact hexecuted
    case reported =>
      rw [tick_executions] at hexecuted ⊢
      exact hexecuted.sublist (reports_sublist env 0 _)
    case delivered =>
      intro i ran hran hhandles
      rw [tick_executions] at hran
      have hreported := (hreports i ran hran).2
      rw [Nat.zero_add] at hreported
      exact hreported hhandles

end

/-! ### Two schedules of one spec -/

/-- A spec with an interval and a cron expression, in two schedules. -/
def doubledState : RuntimeState where
  specs := .ofList [("load", loadSpec)]
  schedules := [minutely "load", loadSchedule]
  configGeneration := 1
  configLoaded := true

theorem keyed_loadSpecs (id : String) (spec : Spec)
    (h : (SortedMap.ofList [("load", loadSpec)]).lookup id = some spec) : spec.id = id :=
  configured_loadState.keyed id spec h

theorem tick_once_iff_load : (∀ env, RunsOnce env loadState .empty 300) ↔
    loadState.schedules.Pairwise fun s other => Schedule.Ready loadState .empty 300 s →
      Schedule.Ready loadState .empty 300 other → s.specId ≠ other.specId :=
  tick_once_iff keyed_loadSpecs

/-- The spec is executed twice in the fifth minute. -/
theorem spec_run_twice :
    ¬ ∀ env state lastRun now, (∀ id spec, state.specs.lookup id = some spec → spec.id = id) →
      RunsOnce env state lastRun now := by
  intro hall
  have honce := (hall calm doubledState .empty 300 keyed_loadSpecs).executed
  have htwice : (tick calm doubledState .empty 300).1.map (·.spec.id) = ["load", "load"] := by
    decide +kernel
  rw [htwice] at honce
  exact absurd honce (by decide)

end Novbot.Cron
