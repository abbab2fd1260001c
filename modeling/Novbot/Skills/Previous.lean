import Novbot.Lib.Machine
import Novbot.Lib.Recents
import Novbot.Skills.Referenced

/-!
# The versions that a skill had before

An install puts the version that was active in front of the versions before it and trims the list
to the limit of the policy.  It does not look for the new version in the list, so a version that
comes back while it is still listed is listed beside being active.

`previous_recent_iff` says for every run of installs that the list is the most recent other
versions, each once, if and only if no install brings such a version back.
-/

namespace Novbot.Skills

open Novbot.Package Recency Text

/-! ## Moves on the active skills -/

/-- A turn, with the disk and the clock as it finds them. -/
structure Turn where
  policy : SkillPolicy
  env : Nat → Attempt
  skill : DesiredSkill
  disk : Disk
  elapsed : Nat

/-- The steps of reconciles. -/
inductive Move where
  | turn (turn : Turn)
  /-- The skills that are not desired any more go. -/
  | retain (skills : List DesiredSkill)

/-- The active skills, with the installs of one skill: version and limit, newest first. -/
structure Ledger where
  active : ActiveSkills
  installs : List (String × Nat)

section
variable (setup : Setup) (name : String)

def Turn.on (turn : Turn) (active : ActiveSkills) : Progress :=
  ⟨turn.disk, active, turn.elapsed, []⟩

/-- The turn installs its skill. -/
def Turn.succeeds (turn : Turn) (active : ActiveSkills) : Bool :=
  ((turn.on active).outcome setup turn.policy turn.env turn.skill).result.isOk

def Ledger.move (ledger : Ledger) : Move → Ledger
  | .turn turn =>
    ⟨((turn.on ledger.active).turn setup turn.policy turn.env turn.skill).active,
      if turn.skill.name = name ∧ turn.succeeds setup ledger.active = true then
        (turn.skill.sha256, turn.policy.keepPreviousVersions) :: ledger.installs
      else ledger.installs⟩
  | .retain skills =>
    ⟨retained ledger.active skills,
      if name ∈ skills.map (·.name) then ledger.installs else []⟩

def Ledger.run (moves : List Move) (ledger : Ledger) : Ledger :=
  moves.foldl (Ledger.move setup name) ledger

end

/-! ## What is said of the list -/

/-- The list is the most recently active other versions, each once and newest first, up to the
limit of the last install.  It has as many of them as the limit allows, unless an earlier install
had a lower limit. -/
structure Recent (installs : List (String × Nat)) (entry : ActiveSkill) : Prop where
  current : (installs.map (·.1)).head? = some entry.sha256
  nodup : entry.previous.Nodup
  other : entry.sha256 ∉ entry.previous
  newest : entry.previous <+: others (installs.map (·.1))
  limit : ∀ install, installs.head? = some install → entry.previous.length ≤ install.2
  full : ∀ install, installs.head? = some install → (∀ earlier ∈ installs, install.2 ≤ earlier.2) →
    entry.previous = (others (installs.map (·.1))).take install.2

def Ledger.Recent (name : String) (ledger : Ledger) : Prop :=
  ∀ entry, ledger.active.lookup name = some entry → Skills.Recent ledger.installs entry

/-- The move installs a version that is not active but listed, and stays listed behind the
version that was active. -/
def Move.Revives (setup : Setup) (name : String) (ledger : Ledger) : Move → Prop
  | .turn t => t.skill.name = name ∧ t.succeeds setup ledger.active = true ∧
      ∃ entry, ledger.active.lookup name = some entry ∧ t.skill.sha256 ≠ entry.sha256 ∧
        t.skill.sha256 ∈ entry.previous.take (t.policy.keepPreviousVersions - 1)
  | .retain _ => False

/-- The list is cut from the recent other versions, at a limit that no install undercuts. -/
def Ledger.Cut (name : String) (ledger : Ledger) : Prop :=
  match ledger.active.lookup name with
  | none => ledger.installs = []
  | some entry => ∃ keep rest limit, ledger.installs = (entry.sha256, keep) :: rest ∧
      limit ≤ keep ∧ (∀ bound, (∀ install ∈ ledger.installs, bound ≤ install.2) → bound ≤ limit) ∧
      entry.previous = (others (ledger.installs.map (·.1))).take limit

section
variable {setup : Setup} {name : String} {ledger : Ledger}

theorem cut_none (h : ledger.active.lookup name = none) :
    ledger.Cut name ↔ ledger.installs = [] := by
  rw [Ledger.Cut, h]

theorem cut_some {entry : ActiveSkill} (h : ledger.active.lookup name = some entry) :
    ledger.Cut name ↔ ∃ keep rest limit, ledger.installs = (entry.sha256, keep) :: rest ∧
      limit ≤ keep ∧ (∀ bound, (∀ install ∈ ledger.installs, bound ≤ install.2) → bound ≤ limit) ∧
      entry.previous = (others (ledger.installs.map (·.1))).take limit := by
  rw [Ledger.Cut, h]

theorem Ledger.Cut.recent (h : ledger.Cut name) : ledger.Recent name := by
  intro entry hentry
  obtain ⟨keep, rest, limit, hinstalls, hkeep, hbound, hprevious⟩ := (cut_some hentry).mp h
  have hhead : ∀ install, ledger.installs.head? = some install → install = (entry.sha256, keep) := by
    intro install hinstall
    rw [hinstalls] at hinstall
    exact (Option.some.inj hinstall).symm
  constructor
  · rw [hinstalls]
    rfl
  · rw [hprevious]
    exact (nodup_others _).sublist (List.take_sublist _ _)
  · rw [hprevious, hinstalls]
    exact fun hmem => newest_not_mem_others _ _ (List.mem_of_mem_take hmem)
  · rw [hprevious]
    exact List.take_prefix _ _
  · intro install hinstall
    rw [hhead install hinstall, hprevious]
    exact (List.length_take_le _ _).trans hkeep
  · intro install hinstall hlowest
    have hlimit : limit = install.2 := by
      rw [hhead install hinstall] at hlowest ⊢
      exact le_antisymm hkeep (hbound keep hlowest)
    rw [hprevious, hlimit]

/-! ## One move -/

theorem turn_active (turn : Turn) (active : ActiveSkills) :
    (turn.succeeds setup active = false ∧
      ((turn.on active).turn setup turn.policy turn.env turn.skill).active = active) ∨
    (turn.succeeds setup active = true ∧ ∃ installed, installed.sha256 = turn.skill.sha256 ∧
      installed.previous =
        (previousOf turn.skill active).take turn.policy.keepPreviousVersions ∧
      ((turn.on active).turn setup turn.policy turn.env turn.skill).active =
        active.insert turn.skill.name installed) := by
  have hstores := @turn_stores setup turn.policy turn.env turn.skill (fun _ => True) (turn.on active)
    (fun _ _ _ _ _ _ => trivial) trivial
  rcases hstores with ⟨hfailed, hsame, -⟩ | ⟨hok, i, disk, limits, mid, -, -, -, hactive, -⟩
  · exact .inl ⟨hfailed, hsame⟩
  · exact .inr ⟨hok, _, rfl, activate_previous, hactive⟩

/-- What an install of the skill leaves. -/
theorem move_installed {turn : Turn} (hname : turn.skill.name = name)
    (hok : turn.succeeds setup ledger.active = true) :
    ∃ installed, installed.sha256 = turn.skill.sha256 ∧
      installed.previous =
        (previousOf turn.skill ledger.active).take turn.policy.keepPreviousVersions ∧
      (ledger.move setup name (.turn turn)).active.lookup name = some installed ∧
      (ledger.move setup name (.turn turn)).installs =
        (turn.skill.sha256, turn.policy.keepPreviousVersions) :: ledger.installs := by
  rcases turn_active turn ledger.active with ⟨hfailed, -⟩ | ⟨-, installed, hsha, hprevious, hactive⟩
  · rw [hok] at hfailed
    cases hfailed
  · refine ⟨installed, hsha, hprevious, ?_, if_pos ⟨hname, hok⟩⟩
    show ((turn.on ledger.active).turn setup turn.policy turn.env turn.skill).active.lookup name = _
    rw [hactive, SortedMap.lookup_insert, if_pos hname.symm]

/-- Any other turn leaves the skill. -/
theorem move_other {turn : Turn}
    (h : ¬ (turn.skill.name = name ∧ turn.succeeds setup ledger.active = true)) :
    (ledger.move setup name (.turn turn)).active.lookup name = ledger.active.lookup name ∧
      (ledger.move setup name (.turn turn)).installs = ledger.installs := by
  refine ⟨?_, if_neg h⟩
  show ((turn.on ledger.active).turn setup turn.policy turn.env turn.skill).active.lookup name = _
  rcases turn_active turn ledger.active with ⟨-, hsame⟩ | ⟨hok, installed, -, -, hactive⟩
  · rw [hsame]
  · rw [hactive, SortedMap.lookup_insert, if_neg]
    exact fun hname => h ⟨hname.symm, hok⟩

theorem cut_congr {ledger' : Ledger}
    (hactive : ledger'.active.lookup name = ledger.active.lookup name)
    (hinstalls : ledger'.installs = ledger.installs) : ledger'.Cut name ↔ ledger.Cut name := by
  rw [Ledger.Cut, Ledger.Cut, hactive, hinstalls]

theorem previousOf_none {skill : DesiredSkill} {active : ActiveSkills}
    (h : active.lookup skill.name = none) : previousOf skill active = [] := by
  rw [previousOf, h]

theorem previousOf_some {skill : DesiredSkill} {active : ActiveSkills} {entry : ActiveSkill}
    (h : active.lookup skill.name = some entry) :
    previousOf skill active =
      if entry.sha256 ≠ skill.sha256 then entry.sha256 :: entry.previous else entry.previous := by
  rw [previousOf, h]

/-- An install that brings no listed version back keeps the cut. -/
theorem install_cut {turn : Turn} (hname : turn.skill.name = name)
    (hok : turn.succeeds setup ledger.active = true) (hcut : ledger.Cut name)
    (hgood : ¬ Move.Revives setup name ledger (.turn turn)) :
    (ledger.move setup name (.turn turn)).Cut name := by
  obtain ⟨installed, hsha, hprevious, hlookup, hinstalls⟩ := move_installed hname hok
  rw [cut_some hlookup, hinstalls, hsha, hprevious]
  subst hname
  cases hentry : ledger.active.lookup turn.skill.name with
  | none =>
    rw [(cut_none hentry).mp hcut, previousOf_none hentry]
    refine ⟨_, _, _, rfl, le_rfl, fun bound hbound => hbound _ List.mem_cons_self, ?_⟩
    rw [List.take_nil]
    exact List.take_nil.symm
  | some entry =>
    obtain ⟨keep, rest, limit, hbefore, hkeep, hbound, hlist⟩ := (cut_some hentry).mp hcut
    have hothers : others (ledger.installs.map (·.1)) =
        others (entry.sha256 :: rest.map (·.1)) := by rw [hbefore, List.map_cons]
    rw [hothers] at hlist
    rw [previousOf_some hentry]
    by_cases hsame : entry.sha256 = turn.skill.sha256
    · -- The active version is installed again.
      rw [if_neg (not_not.mpr hsame), hlist, List.take_take]
      refine ⟨_, _, min turn.policy.keepPreviousVersions limit, rfl, min_le_left _ _,
        fun bound hall => ?_, ?_⟩
      · refine le_min (hall _ List.mem_cons_self) (hbound bound fun install hinstall => ?_)
        exact hall install (.tail _ hinstall)
      · rw [List.map_cons, hbefore, List.map_cons, hsame, others_again]
    · rw [if_pos hsame]
      have hrevived : turn.skill.sha256 ∉
          entry.previous.take (turn.policy.keepPreviousVersions - 1) := fun hmem =>
        hgood ⟨rfl, hok, entry, hentry, Ne.symm hsame, hmem⟩
      have htake : (entry.sha256 :: entry.previous).take turn.policy.keepPreviousVersions =
          (entry.sha256 :: others (entry.sha256 :: rest.map (·.1))).take
            (min turn.policy.keepPreviousVersions (limit + 1)) := by
        rw [← List.take_take, List.take_succ_cons, hlist]
      have hfresh : turn.skill.sha256 ∉
          (entry.sha256 :: entry.previous).take turn.policy.keepPreviousVersions := by
        cases hlimit : turn.policy.keepPreviousVersions with
        | zero => exact List.not_mem_nil
        | succ n =>
          rw [hlimit, Nat.add_sub_cancel] at hrevived
          rw [List.take_succ_cons, List.mem_cons, not_or]
          exact ⟨Ne.symm hsame, hrevived⟩
      refine ⟨_, _, min turn.policy.keepPreviousVersions (limit + 1), rfl, min_le_left _ _,
        fun bound hall => ?_, ?_⟩
      · have hlow := hbound bound fun install hinstall => hall install (.tail _ hinstall)
        exact le_min (hall _ List.mem_cons_self) (hlow.trans (Nat.le_succ limit))
      · rw [htake] at hfresh
        rw [htake, List.map_cons, hbefore, List.map_cons, others_switch, take_erase hfresh]

theorem move_cut (move : Move) (hcut : ledger.Cut name) (hgood : ¬ move.Revives setup name ledger) :
    (ledger.move setup name move).Cut name := by
  cases move with
  | turn turn =>
    by_cases hinstall : turn.skill.name = name ∧ turn.succeeds setup ledger.active = true
    · exact install_cut hinstall.1 hinstall.2 hcut hgood
    · obtain ⟨hactive, hinstalls⟩ := move_other hinstall
      exact (cut_congr hactive hinstalls).mpr hcut
  | retain skills =>
    have hlookup := lookup_retained ledger.active skills name
    by_cases hmem : name ∈ skills.map (·.name)
    · rw [if_pos hmem] at hlookup
      exact (cut_congr hlookup (if_pos hmem)).mpr hcut
    · rw [if_neg hmem] at hlookup
      exact (cut_none hlookup).mpr (if_neg hmem)

/-- A version that comes back while it is listed is listed beside being active. -/
theorem revived_not_recent (move : Move) (hbad : move.Revives setup name ledger) :
    ¬ (ledger.move setup name move).Recent name := by
  cases move with
  | turn turn =>
    obtain ⟨hname, hok, entry, hentry, hother, hlisted⟩ := hbad
    obtain ⟨installed, hsha, hprevious, hlookup, -⟩ := move_installed hname hok
    intro hrecent
    refine (hrecent installed hlookup).other ?_
    subst hname
    rw [hsha, hprevious, previousOf_some hentry, if_pos (Ne.symm hother)]
    cases hlimit : turn.policy.keepPreviousVersions with
    | zero =>
      rw [hlimit] at hlisted
      cases hlisted
    | succ n =>
      rw [hlimit, Nat.add_sub_cancel] at hlisted
      exact List.mem_cons_of_mem _ hlisted
  | retain skills => exact hbad.elim

/-! ## Reconciles -/

/-- The turns of a reconcile are moves. -/
theorem turns_moves {policy : SkillPolicy} (skills : List DesiredSkill)
    (env : Nat → Nat → Attempt) (progress : Progress) :
    ∃ moves, ∀ installs, (Ledger.run setup name moves ⟨progress.active, installs⟩).active =
      (progress.turns setup policy skills env).active := by
  induction skills generalizing env progress with
  | nil => exact ⟨[], fun _ => rfl⟩
  | cons skill skills ih =>
    obtain ⟨moves, hmoves⟩ := ih (fun i => env (i + 1)) (progress.turn setup policy (env 0) skill)
    refine ⟨.turn ⟨policy, env 0, skill, progress.disk, progress.elapsed⟩ :: moves, fun installs => ?_⟩
    have hfirst : (((Turn.mk policy (env 0) skill progress.disk progress.elapsed).on
        progress.active).turn setup policy (env 0) skill).active =
          (progress.turn setup policy (env 0) skill).active := by
      have houtcome : ((Turn.mk policy (env 0) skill progress.disk progress.elapsed).on
          progress.active).outcome setup policy (env 0) skill =
            progress.outcome setup policy (env 0) skill := rfl
      unfold Progress.turn
      rw [houtcome]
      dsimp only
      split
      · rfl
      · rfl
    show (Ledger.run setup name moves ⟨(((Turn.mk policy (env 0) skill progress.disk
      progress.elapsed).on progress.active).turn setup policy (env 0) skill).active, _⟩).active = _
    rw [hfirst]
    exact hmoves _

/-- A reconcile is a run of moves. -/
theorem reconcile_moves (host : Host) (desired : DesiredSet) (conditions : Conditions) :
    ∃ moves, ∀ installs, (Ledger.run setup name moves ⟨host.inner.skills, installs⟩).active =
      (host.reconcile setup desired conditions).1.inner.skills := by
  cases hnoop : host.inner.isNoop desired with
  | true =>
    rw [reconcile_of_noop hnoop]
    exact ⟨[], fun _ => rfl⟩
  | false =>
    rw [(reconcile_of_not_noop hnoop).1]
    obtain ⟨moves, hmoves⟩ := @turns_moves setup name desired.policy desired.skills
      conditions.attempts (host.begin desired)
    exact ⟨.retain desired.skills :: moves, fun installs => hmoves _⟩

/-! ## Runs -/

/-- Of every run of turns and uninstalls from skills without the one that is watched: its list of
previous versions is the most recently active other versions, each once and newest first, up to
the limit, in every state if and only if no install brings back a version that is still listed. -/
theorem previous_recent_iff {active : ActiveSkills} (hfresh : active.lookup name = none)
    (moves : List Move) :
    (∀ before, before <+: moves → (Ledger.run setup name before ⟨active, []⟩).Recent name) ↔
      ∀ before move, before ++ [move] <+: moves →
        ¬ move.Revives setup name (Ledger.run setup name before ⟨active, []⟩) := by
  have hcut : (Ledger.mk active []).Cut name := (cut_none hfresh).mpr rfl
  exact Concurrent.runs_iff (fun _ h => h.recent) (fun _ move h hgood => move_cut move h hgood)
    (fun _ move _ hbad => revived_not_recent move hbad) hcut moves

end

/-! ### A rollback -/

def sealedText (version : String) : String :=
  "[skill]\nname = \"uptime\"\nversion = \"" ++ version ++ "\"\n"

def sealedTable (version : String) : Toml :=
  .table [("skill", .table [("name", .str "uptime"), ("version", .str version)])]

def markerText (version sha256 : String) : String :=
  "\x7b\"name\":\"uptime\",\"sha256\":\"" ++ sha256 ++ "\",\"version\":\"" ++ version ++ "\"\x7d"

/-- Two versions of a skill, by their hashes. -/
def versions : List (String × String) := [("1.0.0", "a1"), ("1.1.0", "b2")]

/-- A node that reads the documents of the two versions. -/
def pairSetup : Setup :=
  { uptimeSetup with
    formats := { widerFormats with
      toml := fun text => ((versions.find? fun v => sealedText v.1 = text).map fun v =>
        sealedTable v.1).elim (.error "expected a document") .ok
      json := { widerFormats.json with
        parse := fun text => (versions.find? fun v => markerText v.1 v.2 = text).map fun v =>
          marker "uptime" v.2 v.1 } } }

/-- A disk with both versions. -/
def pairDisk : Disk :=
  { Disk.empty with
    store := .ofList (versions.map fun v => (v.2, .ofList [
      ("module.wasm", [0, 97, 115, 109]), ("skill.toml", utf8 (sealedText v.1).toList),
      (markerPath, utf8 (markerText v.1 v.2).toList)]))
    cache := .ofList (versions.map fun v => (v.2 ++ ".engine.cwasm", [1])) }

def installOf (version : String × String) : Move :=
  .turn ⟨defaultPolicy, fun _ => refusedAttempt,
    { uptimeSkill with version := version.1, sha256 := version.2 }, pairDisk, 0⟩

theorem previous_recent_iff_upgrade :
    (∀ before, before <+: versions.map installOf →
      (Ledger.run pairSetup "uptime" before ⟨.empty, []⟩).Recent "uptime") ↔
      ∀ before move, before ++ [move] <+: versions.map installOf →
        ¬ move.Revives pairSetup "uptime" (Ledger.run pairSetup "uptime" before ⟨.empty, []⟩) :=
  previous_recent_iff rfl _

/-- An upgrade and a rollback: the list has the active version. -/
theorem rollback_lists_active :
    ¬ (Ledger.run pairSetup "uptime" (versions.map installOf ++ [installOf ("1.0.0", "a1")])
      ⟨.empty, []⟩).Recent "uptime" := by
  intro hrecent
  have hentry : ((Ledger.run pairSetup "uptime"
      (versions.map installOf ++ [installOf ("1.0.0", "a1")]) ⟨.empty, []⟩).active.lookup
        "uptime").map (fun entry => (entry.sha256, entry.previous)) = some ("a1", ["b2", "a1"]) := by
    decide +kernel
  obtain ⟨entry, hlookup, hlist⟩ := Option.map_eq_some_iff.mp hentry
  obtain ⟨hsha, hprevious⟩ := Prod.mk.inj hlist
  have hother := (hrecent entry hlookup).other
  rw [hsha, hprevious] at hother
  exact hother (by decide)

end Novbot.Skills
