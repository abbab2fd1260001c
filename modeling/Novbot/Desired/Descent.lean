import Novbot.Desired.Alone

/-!
# Rollbacks go down

A rollback without a version takes each of its nodes to the greatest published or deprecated
version below the desired one, or leaves it alone and says why.  A node goes down at most as often
as there are versions (`rollback_descends`).
-/

namespace Novbot.Desired

open Concurrent

variable (setup : Setup)

/-- Published or deprecated, and below another version. -/
def usable (current : Nat) (version : VersionRecord) : Bool :=
  version.status ≠ .other && (setup.precedence version.version).any (· < current)

/-- The place of a version, where it has one. -/
def place (version : VersionRecord) : Nat := (setup.precedence version.version).getD 0

/-- The place of the desired version. -/
def current (row : Option Row) : Option Nat := row.bind fun row => setup.precedence row.version

/-- The greatest of the usable versions. -/
structure IsPrevious (versions : List VersionRecord) (below : Nat) (target : VersionRecord) :
    Prop where
  mem : target ∈ versions
  usable : usable setup below target = true
  greatest : ∀ other ∈ versions, Desired.usable setup below other = true →
    place setup other ≤ place setup target

/-- What a rollback does to the row of a node, with what it says and how far the generation goes
up. -/
inductive RollsBack (versions : List VersionRecord) (node : LiveNode) (row : Option Row) :
    Outcome → Option Row → Int → Prop where
  | noPrevious :
    (∀ below, current setup row = some below → ∀ version ∈ versions,
      usable setup below version = false) →
    RollsBack versions node row .noPreviousVersion row 0
  | nodeTooOld {below : Nat} {target : VersionRecord} :
    current setup row = some below → IsPrevious setup versions below target →
    nodeTooOld setup node.agentVersion target.minNodeVersion = true →
    RollsBack versions node row .nodeTooOld row 0
  | platformUnsupported {below : Nat} {target : VersionRecord} :
    current setup row = some below → IsPrevious setup versions below target →
    platformUnsupported node.labels target.platforms = true →
    RollsBack versions node row .platformUnsupported row 0
  | moved {below : Nat} {target : VersionRecord} :
    current setup row = some below → IsPrevious setup versions below target →
    nodeTooOld setup node.agentVersion target.minNodeVersion = false →
    platformUnsupported node.labels target.platforms = false →
    RollsBack versions node row .written (some ⟨target.version, target.sha256⟩) 1

/-- How often the row of a node changes in rollbacks, one after the other. -/
def descents (skillName nodeId : String) (versions : List VersionRecord) :
    List Slots → Tables → Nat
  | [], _ => 0
  | slots :: rest, tables =>
    let after := rolledBack setup skillName versions slots tables
    (if after.rows skillName nodeId = tables.rows skillName nodeId then 0 else 1) +
      descents skillName nodeId versions rest after

/-! ## The earlier version -/

/-- The last of the greatest versions of a list. -/
def later (best : Option VersionRecord) (row : VersionRecord) : Option VersionRecord :=
  match best with
  | none => some row
  | some best =>
    if (setup.precedence row.version).getD 0 < (setup.precedence best.version).getD 0 then some best
    else some row

section

variable {setup} {versions : List VersionRecord} {below : Nat} {target : VersionRecord}

theorem foldl_later (rows : List VersionRecord) (best : VersionRecord) :
    ∃ target ∈ best :: rows, rows.foldl (later setup) (some best) = some target ∧
      ∀ other ∈ best :: rows, place setup other ≤ place setup target := by
  induction rows generalizing best with
  | nil =>
    refine ⟨best, List.mem_singleton_self best, rfl, fun other hother => ?_⟩
    rw [List.mem_singleton.mp hother]
  | cons row rows ih =>
    rw [List.foldl_cons, later]
    split
    · next hless =>
      obtain ⟨target, hmem, hfold, hgreatest⟩ := ih best
      have hbest := hgreatest best List.mem_cons_self
      refine ⟨target, ?_, hfold, fun other hother => ?_⟩
      · rcases List.mem_cons.mp hmem with rfl | hmem
        · exact List.mem_cons_self
        · exact .tail _ (.tail _ hmem)
      · rcases List.mem_cons.mp hother with rfl | hother
        · exact hbest
        · rcases List.mem_cons.mp hother with rfl | hother
          · exact (Nat.le_of_lt hless).trans hbest
          · exact hgreatest other (.tail _ hother)
    · next hmore =>
      obtain ⟨target, hmem, hfold, hgreatest⟩ := ih row
      refine ⟨target, .tail _ hmem, hfold, fun other hother => ?_⟩
      rcases List.mem_cons.mp hother with rfl | hother
      · exact (Nat.not_lt.mp hmore).trans (hgreatest row List.mem_cons_self)
      · exact hgreatest other hother

theorem previousVersion_cases (setup : Setup) (versions : List VersionRecord) (below : Nat) :
    (previousVersion setup versions below = none ∧
      ∀ version ∈ versions, usable setup below version = false) ∨
    ∃ target, previousVersion setup versions below = some target ∧
      IsPrevious setup versions below target := by
  have hprevious : previousVersion setup versions below =
      (versions.filter (usable setup below)).foldl (later setup) none := rfl
  rw [hprevious]
  cases hrows : versions.filter (usable setup below) with
  | nil =>
    refine .inl ⟨rfl, fun version hversion => ?_⟩
    exact Bool.eq_false_iff.mpr (List.filter_eq_nil_iff.mp hrows version hversion)
  | cons first rows =>
    obtain ⟨target, hmem, hfold, hgreatest⟩ := @foldl_later setup rows first
    rw [← hrows] at hmem hgreatest
    obtain ⟨hversions, husable⟩ := List.mem_filter.mp hmem
    refine .inr ⟨target, hfold, hversions, husable, fun other hother hbelow => ?_⟩
    exact hgreatest other (List.mem_filter.mpr ⟨hother, hbelow⟩)

theorem usable_iff {version : VersionRecord} : usable setup below version = true ↔
    version.status ≠ .other ∧ ∃ place, setup.precedence version.version = some place ∧ place < below := by
  rw [usable, Bool.and_eq_true, decide_eq_true_eq, Option.any_eq_true]
  simp only [decide_eq_true_eq]

/-! ## One node -/

variable {tables : Tables} {slots : Slots} {skillName : String} {node : LiveNode}

/-- How far the generation of a node goes up with its plan. -/
def NodePlan.raise (plan : NodePlan) : Int := if plan.action = none then 0 else 1

/-- The plan of a rollback and what it means for the row. -/
theorem classifyRollback_cases (desired : String → Option Row) (gens : String → Option Int)
    (versions : List VersionRecord) (node : LiveNode) :
    let plan := classifyRollback setup desired gens none versions node
    RollsBack setup versions node (desired node.nodeId) plan.outcome
      (plan.rowAfter (desired node.nodeId)) plan.raise := by
  intro plan
  have hplan : plan = classifyRollback setup desired gens none versions node := rfl
  have htarget : rollbackTarget setup desired none versions node =
      (current setup (desired node.nodeId)).bind (previousVersion setup versions) := by
    rw [rollbackTarget, Option.none_or, current]
    cases desired node.nodeId <;> rfl
  rw [hplan, classifyRollback, htarget]
  cases hcurrent : current setup (desired node.nodeId) with
  | none =>
    refine .noPrevious fun below hbelow => ?_
    rw [hcurrent] at hbelow
    cases hbelow
  | some below =>
    rw [Option.bind_some]
    rcases previousVersion_cases setup versions below with
      ⟨hnone, hunusable⟩ | ⟨target, hsome, hprevious⟩
    · rw [hnone]
      refine .noPrevious fun other hother => ?_
      rw [hcurrent] at hother
      cases hother
      exact hunusable
    · rw [hsome]
      dsimp only
      obtain ⟨hold, hplan⟩ | ⟨hplatform, hplan⟩ | ⟨hsame, hplan⟩ | ⟨hold, hplatform, -, hplan⟩ :=
        @classifyVersion_cases setup desired gens node target.version target.sha256
          target.minNodeVersion target.platforms
      all_goals rw [hplan]
      · exact .nodeTooOld hcurrent hprevious hold
      · exact .platformUnsupported hcurrent hprevious hplatform
      · -- the desired version is not below itself
        obtain ⟨row, hrow, hsame⟩ := (Option.any_eq_true _ _).mp hsame
        have hversion : row.version = target.version :=
          of_decide_eq_true (Bool.and_eq_true_iff.mp hsame).1
        obtain ⟨-, place, hplace, hless⟩ := usable_iff.mp hprevious.usable
        rw [current, hrow, Option.bind_some, hversion, hplace] at hcurrent
        exact absurd (Option.some.inj hcurrent) (Nat.ne_of_lt hless)
      · exact .moved hcurrent hprevious hold hplatform

/-- A rollback does to each of its nodes what it says, and nothing to the others. -/
theorem rolledBack_nodes (skillName : String) (versions : List VersionRecord) (slots : Slots)
    (tables : Tables) :
    (∀ node ∈ slots.nodes, ∃ outcome by_, RollsBack setup versions node
      (tables.rows skillName node.nodeId) outcome
        ((rolledBack setup skillName versions slots tables).rows skillName node.nodeId) by_ ∧
      (rolledBack setup skillName versions slots tables).gen node.nodeId =
        tables.gen node.nodeId + by_ ∧
      (classifyRollback setup (tables.rows skillName) tables.generation none versions
        node).outcome = outcome) ∧
    ∀ nodeId, nodeId ∉ slots.nodes.map (·.nodeId) →
      (rolledBack setup skillName versions slots tables).rows skillName nodeId =
        tables.rows skillName nodeId ∧
      (rolledBack setup skillName versions slots tables).gen nodeId = tables.gen nodeId := by
  obtain ⟨hnodes, hothers⟩ := @applyAll_writesOf skillName slots
    (classifyRollback setup (tables.rows skillName) tables.generation none versions)
    (fun node => counts_classifyRollback.nodeId) tables
  constructor
  · intro node hmem
    obtain ⟨hgen, hdesired⟩ := hnodes node hmem
    have hrolls := @classifyRollback_cases setup (tables.rows skillName) tables.generation versions node
    have hcounts := @counts_classifyRollback setup (tables.rows skillName) tables.generation node none
      versions
    have hups := @upserts_rollback setup (tables.rows skillName) tables.generation none versions
      slots.nodes _ (List.mem_map_of_mem hmem)
    have hrow : (rolledBack setup skillName versions slots tables).rows skillName node.nodeId =
        (classifyRollback setup (tables.rows skillName) tables.generation none versions
          node).rowAfter (tables.rows skillName node.nodeId) := by
      rw [Tables.rows, rolledBack, hdesired]
      exact rows_of_upserts hups
    rw [hrow]
    refine ⟨_, _, hrolls, ?_, rfl⟩
    rw [Tables.gen, rolledBack, hgen, NodePlan.raise]
    cases haction : (classifyRollback setup (tables.rows skillName) tables.generation none
      versions node).action with
    | none => exact (Int.add_zero _).symm
    | some action => exact hcounts.generation (by rw [haction]; exact Option.some_ne_none _)
  · intro nodeId hmem
    obtain ⟨hgen, hdesired⟩ := hothers nodeId hmem
    refine ⟨?_, ?_⟩
    · rw [Tables.rows, rolledBack, hdesired]
      rfl
    · rw [Tables.gen, rolledBack, hgen]
      rfl

/-! ## Chains -/

/-- How many versions are below the desired one. -/
def rank (setup : Setup) (versions : List VersionRecord) (row : Option Row) : Nat :=
  match current setup row with
  | none => 0
  | some below => versions.countP (usable setup below)

theorem countP_lt {α : Type*} {p q : α → Bool} {l : List α} (himp : ∀ x ∈ l, p x = true → q x = true)
    {x : α} (hx : x ∈ l) (hq : q x = true) (hp : p x = false) : l.countP p < l.countP q := by
  obtain ⟨before, after, rfl⟩ := List.append_of_mem hx
  have hbefore : before.countP p ≤ before.countP q :=
    List.countP_mono_left fun y hy => himp y (List.mem_append_left _ hy)
  have hafter : after.countP p ≤ after.countP q :=
    List.countP_mono_left fun y hy => himp y (List.mem_append_right _ (.tail _ hy))
  rw [List.countP_append, List.countP_append, List.countP_cons_of_pos hq,
    List.countP_cons_of_neg (Bool.eq_false_iff.mp hp)]
  omega

/-- A rollback leaves the row, or takes it below itself. -/
theorem RollsBack.descends {row row' : Option Row} {outcome : Outcome} {by_ : Int}
    (h : RollsBack setup versions node row outcome row' by_) :
    row' = row ∨ rank setup versions row' < rank setup versions row := by
  cases h with
  | noPrevious => exact .inl rfl
  | nodeTooOld => exact .inl rfl
  | platformUnsupported => exact .inl rfl
  | @moved below target hcurrent hprevious =>
    obtain ⟨-, place, hplace, hless⟩ := usable_iff.mp hprevious.usable
    have hafter : current setup (some ⟨target.version, target.sha256⟩) = some place := hplace
    right
    rw [rank, rank, hafter, hcurrent]
    refine countP_lt (fun version _ hbelow => ?_) hprevious.mem hprevious.usable ?_
    · obtain ⟨hstatus, other, hother, hlower⟩ := usable_iff.mp hbelow
      exact usable_iff.mpr ⟨hstatus, other, hother, hlower.trans hless⟩
    · refine Bool.eq_false_iff.mpr fun hbelow => ?_
      obtain ⟨-, other, hother, hlower⟩ := usable_iff.mp hbelow
      rw [hplace] at hother
      cases hother
      exact Nat.lt_irrefl _ hlower

theorem descents_le (nodeId : String) (requests : List Slots) (tables : Tables) :
    descents setup skillName nodeId versions requests tables ≤
      rank setup versions (tables.rows skillName nodeId) := by
  induction requests generalizing tables with
  | nil => exact Nat.zero_le _
  | cons slots requests ih =>
    have hrest := ih (rolledBack setup skillName versions slots tables)
    rw [descents]
    obtain ⟨hnodes, hothers⟩ := @rolledBack_nodes setup skillName versions slots tables
    have hstep : (rolledBack setup skillName versions slots tables).rows skillName nodeId =
        tables.rows skillName nodeId ∨
      rank setup versions ((rolledBack setup skillName versions slots tables).rows skillName nodeId) <
        rank setup versions (tables.rows skillName nodeId) := by
      by_cases hmem : nodeId ∈ slots.nodes.map (·.nodeId)
      · obtain ⟨node, hnode, rfl⟩ := List.mem_map.mp hmem
        obtain ⟨outcome, by_, hrolls, -⟩ := hnodes node hnode
        exact hrolls.descends
      · exact .inl (hothers nodeId hmem).1
    split
    · next hsame =>
      rw [hsame] at hrest
      omega
    · next hmoved =>
      have hlower := hstep.resolve_left hmoved
      omega

theorem rank_le (row : Option Row) : rank setup versions row ≤ versions.length := by
  rw [rank]
  split
  · exact Nat.zero_le _
  · exact List.countP_le_length

end

/-- Of every rollback without a version that nothing interferes with: each of its nodes stays as it
is, because it is too old or of another platform for the greatest usable version below the desired
one, or because there is none, or it goes to that version and its generation counts up.  The other
nodes stay as they are.  And of every sequence of rollbacks: a node goes down at most as often as
there are versions. -/
theorem rollback_descends (setup : Setup) (skillName : String) (versions : List VersionRecord) :
    (∀ (t : Nat) (center : Center) (slots : Slots), center.Free t →
      ∃ center', (rollback setup skillName none versions slots).alone (exec t) center =
        some ((), center') ∧
          center'.tables = rolledBack setup skillName versions slots center.tables) ∧
    (∀ (slots : Slots) (tables : Tables),
      (∀ node ∈ slots.nodes, ∃ outcome by_, RollsBack setup versions node
        (tables.rows skillName node.nodeId) outcome
          ((rolledBack setup skillName versions slots tables).rows skillName node.nodeId) by_ ∧
        (rolledBack setup skillName versions slots tables).gen node.nodeId =
          tables.gen node.nodeId + by_ ∧
        (classifyRollback setup (tables.rows skillName) tables.generation none versions
          node).outcome = outcome) ∧
      ∀ nodeId, nodeId ∉ slots.nodes.map (·.nodeId) →
        (rolledBack setup skillName versions slots tables).rows skillName nodeId =
          tables.rows skillName nodeId ∧
        (rolledBack setup skillName versions slots tables).gen nodeId = tables.gen nodeId) ∧
    ∀ (requests : List Slots) (tables : Tables) (nodeId : String),
      descents setup skillName nodeId versions requests tables ≤ versions.length :=
  ⟨fun _ _ slots hfree => alone_rollback setup skillName versions slots hfree,
    fun slots tables => rolledBack_nodes skillName versions slots tables,
    fun requests tables nodeId => (descents_le nodeId requests tables).trans (rank_le _)⟩

end Novbot.Desired
