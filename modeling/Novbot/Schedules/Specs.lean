import Novbot.Schedules.Database

/-!
# Specs without schedules

`put_config` with specs alone reads the schedules and writes them back.  A transaction
locks the config that it rewrites, but the read of `put_config` takes no lock, so what
another writer commits between its read and its write is undone.
-/

namespace Novbot.Schedules

open Concurrent

def specsOf (config : Option Config) : Json := (config.map (·.specs)).getD (.arr [])

/-- Each config has the specs and the schedules that a writer supplied last. -/
def Kept (db : Database) : Prop :=
  ∀ nodeId, specsOf (db.tables.configs nodeId) = (db.supplied nodeId).specs ∧
    schedulesOf (db.tables.configs nodeId) = (db.supplied nodeId).schedules

/-- The schedules that a request with specs alone has read are still those of the config
when it writes. -/
def Current (sys : System) : Move Nat String Event → Prop
  | .act t _ => ∀ nodeId specs schedules, sys.about t (.upsertConfig nodeId specs schedules false) →
    schedulesOf (sys.loc t).config = schedulesOf (sys.shared.tables.configs nodeId)
  | .event _ => True

/-! ## Transactions -/

theorem specsOf_write (write : Write) (nodeId : String) (config : Option Config) :
    specsOf (write.config nodeId config) = specsOf config := by
  unfold Write.config
  split
  · split
    · cases config <;> rfl
    · rfl
  · split
    · cases config <;> rfl
    · rfl
  · rfl

theorem schedulesOf_write {write : Write} {nodeId : String} (h : write.sets nodeId = false)
    (config : Option Config) : schedulesOf (write.config nodeId config) = schedulesOf config := by
  unfold Write.config
  split
  · split
    · cases config <;> rfl
    · rfl
  · rw [if_neg (of_decide_eq_false h)]
  · rfl

/-- No write removes a config. -/
theorem none_of_write {write : Write} {nodeId : String} {config : Option Config}
    (h : write.config nodeId config = none) : config = none := by
  unfold Write.config at h
  split at h
  · split at h
    · cases h
    · exact h
  · split at h
    · exact Option.map_eq_none_iff.mp h
    · exact h
  · exact h

/-- Transactions leave the specs alone. -/
theorem specsOf_writes (writes : List Write) (nodeId : String) (config : Option Config) :
    specsOf (configAfter writes nodeId config) = specsOf config := by
  induction writes generalizing config with
  | nil => rfl
  | cons write writes ih => exact (ih _).trans (specsOf_write write nodeId config)

theorem schedulesOf_writes {writes : List Write} {nodeId : String}
    (h : writes.any (·.sets nodeId) = false) (config : Option Config) :
    schedulesOf (configAfter writes nodeId config) = schedulesOf config := by
  induction writes generalizing config with
  | nil => rfl
  | cons write writes ih =>
    rw [List.any_cons, Bool.or_eq_false_iff] at h
    exact (ih h.2 _).trans (schedulesOf_write h.1 config)

theorem none_of_writes {writes : List Write} {nodeId : String} {config : Option Config}
    (h : configAfter writes nodeId config = none) : config = none := by
  induction writes generalizing config with
  | nil => exact h
  | cons write writes ih => exact none_of_write (ih h)

theorem Kept.commit {db : Database} (h : Kept db) (t : Nat) (writes : List Write) :
    Kept (db.commit t writes).2 := by
  unfold Database.commit
  cases happly : applyAll writes db.tables with
  | none => exact h
  | some tables =>
    have hrow := (applied_of_applyAll happly).config
    intro nodeId
    have hspecs : specsOf (tables.configs nodeId) = (db.supplied nodeId).specs := by
      rw [hrow, specsOf_writes]
      exact (h nodeId).1
    dsimp only
    split
    · exact ⟨hspecs, rfl⟩
    · next hnot =>
      rw [Bool.and_eq_true, not_and, Bool.not_eq_true] at hnot
      refine ⟨hspecs, ?_⟩
      cases hsets : writes.any (·.sets nodeId) with
      | false =>
        rw [hrow, schedulesOf_writes hsets]
        exact (h nodeId).2
      | true =>
        have hnone : tables.configs nodeId = none := Option.isSome_eq_false_iff.mp (by
          simpa using hnot hsets) |> Option.isNone_iff_eq_none.mp
        have hbefore : db.tables.configs nodeId = none := none_of_writes ((hrow nodeId).symm.trans hnone)
        rw [hnone, ← hbefore]
        exact (h nodeId).2

/-! ## Single statements -/

theorem Kept.setConfig {db : Database} (h : Kept db) (nodeId : String) (config : Config)
    (supplied : Supplied) :
    Kept { db.setConfig nodeId config with
        supplied := Function.update db.supplied nodeId supplied } ↔
      config.specs = supplied.specs ∧ config.schedules = supplied.schedules := by
  constructor
  · intro hkept
    have hnode := hkept nodeId
    simp only [Database.setConfig, Function.update_self] at hnode
    exact hnode
  · intro hconfig other
    by_cases hother : other = nodeId
    · subst hother
      simp only [Database.setConfig, Function.update_self]
      exact hconfig
    · simp only [Database.setConfig, Function.update_of_ne hother]
      exact h other

theorem Kept.upsertConfig {db : Database} (h : Kept db) (nodeId : String) (specs schedules : Json)
    (supplied : Bool) :
    Kept (db.upsertConfig nodeId specs schedules supplied) ↔
      (supplied = false → schedules = schedulesOf (db.tables.configs nodeId)) := by
  rw [(h nodeId).2]
  refine (h.setConfig nodeId _ _).trans ?_
  cases supplied <;> simp

theorem Kept.updateSchedules {db : Database} (h : Kept db) (nodeId : String) (schedules : Json) :
    Kept (db.updateSchedules nodeId schedules).2 := by
  unfold Database.updateSchedules
  cases hconfig : db.tables.configs nodeId with
  | none => exact h
  | some config =>
    have hspecs := (h nodeId).1
    rw [hconfig] at hspecs
    exact (h.setConfig nodeId _ _).mpr ⟨hspecs, rfl⟩

theorem Kept.registerNode {db : Database} (h : Kept db) (nodeId : String) :
    Kept (db.registerNode nodeId) := by
  intro other
  by_cases hother : other = nodeId
  · subst hother
    simp only [Database.registerNode, Function.update_self]
    have hnode := h other
    cases hconfig : db.tables.configs other with
    | none =>
      rw [hconfig] at hnode
      exact hnode
    | some config =>
      rw [hconfig] at hnode
      exact hnode
  · simp only [Database.registerNode, Function.update_of_ne hother]
    exact h other

/-- An upsert that was given no schedules. -/
def Op.keepsSchedules : Op → Bool
  | .upsertConfig _ _ _ supplied => !supplied
  | _ => false

/-- The other operations keep what was supplied. -/
theorem Kept.exec {db db' : Database} {t : Nat} {op : Op} {uuid : String} {reply : op.Reply}
    (h : Kept db) (hop : op.keepsSchedules = false)
    (he : Schedules.exec t op uuid db = some (reply, db')) : Kept db' := by
  cases op with
  | upsertConfig nodeId specs schedules supplied =>
    cases supplied with
    | false => cases hop
    | true =>
      simp only [Schedules.exec] at he
      split at he
      · cases he
        exact (h.upsertConfig nodeId specs schedules true).mpr nofun
      · cases he
  | updateSchedules nodeId schedules =>
    simp only [Schedules.exec] at he
    split at he
    · have hdb : (db.updateSchedules nodeId schedules).2 = db' := congrArg Prod.snd (Option.some.inj he)
      rw [← hdb]
      exact h.updateSchedules nodeId schedules
    · cases he
  | registerNode nodeId =>
    simp only [Schedules.exec] at he
    split at he
    · cases he
      exact h.registerNode nodeId
    · cases he
  | lockSchedule id =>
    simp only [Schedules.exec] at he
    split at he
    · cases he
      exact h
    · split at he
      · cases he
        exact h
      · cases he
  | lockConfig nodeId =>
    simp only [Schedules.exec] at he
    split at he
    · cases he
      exact h
    · cases he
  | commit writes =>
    have hdb : (db.commit t writes).2 = db' := congrArg Prod.snd (Option.some.inj he)
    rw [← hdb]
    exact h.commit t writes
  | _ =>
    cases he
    exact h

/-! ## Runs -/

theorem initial_kept (tables : Tables) : Kept (initial tables).shared := fun _ => ⟨rfl, rfl⟩

/-- A move keeps what was supplied exactly when it is current. -/
theorem Kept.step_iff {sys sys' : System} {m : Move Nat String Event} (h : Kept sys.shared)
    (hsound : center.Sound terms sys) (hs : center.step sys m = some sys') :
    Kept sys'.shared ↔ Current sys m := by
  cases m with
  | act t uuid =>
    obtain ⟨op, next, reply, shared, hprog, he, rfl⟩ := center.act_eq_some.mp hs
    rw [center.after_shared]
    cases hop : op.keepsSchedules with
    | false =>
      refine iff_of_true (h.exec hop he) ?_
      rintro nodeId specs schedules ⟨next', habout⟩
      rw [hprog] at habout
      cases habout
      cases hop
    | true =>
      cases op with
      | upsertConfig nodeId specs schedules supplied =>
        cases supplied with
        | true => cases hop
        | false =>
          obtain ⟨-, hread⟩ : mayPerform (.upsertConfig nodeId specs schedules false) (sys.loc t) :=
            hsound.pre ⟨next, hprog⟩
          simp only [center, Schedules.exec] at he
          split at he
          · cases he
            rw [h.upsertConfig nodeId specs schedules false, hread rfl]
            constructor
            · rintro hcurrent nodeId' specs' schedules' ⟨next', habout⟩
              rw [hprog] at habout
              cases habout
              exact hcurrent rfl
            · intro hcurrent _
              exact hcurrent nodeId specs schedules ⟨next, hprog⟩
          · cases he
      | _ => cases hop
  | event e =>
    refine iff_of_true ?_ trivial
    cases e with
    | start t request =>
      simp only [Machine.step, center, fire] at hs
      split at hs
      · cases hs
        exact h
      · cases hs
    | abort t =>
      cases hs
      exact h

theorem kept_of_reaches {tables : Tables} {sys : System}
    (h : center.Reaches Current (initial tables) sys) : Kept sys.shared := by
  induction h with
  | refl => exact initial_kept tables
  | step hr hok hs ih =>
    exact (ih.step_iff (Machine.sound_of_reaches center_obeys (initial_sound tables) hr) hs).mpr hok

/-- In every run of requests whose writes are current, each config has the specs and the
schedules that were supplied last, and the next move keeps it so exactly when it is
current too. -/
theorem supplied_kept_iff {tables : Tables} {sys : System}
    (h : center.Reaches Current (initial tables) sys) :
    Kept sys.shared ∧
      ∀ m sys', center.step sys m = some sys' → (Kept sys'.shared ↔ Current sys m) := by
  have hsound := Machine.sound_of_reaches center_obeys (initial_sound tables) h
  have hkept := kept_of_reaches h
  exact ⟨hkept, fun _ _ hs => hkept.step_iff hsound hs⟩

/-- One registered node without a config, and no schedules. -/
def oneNode : Tables :=
  ⟨fun nodeId => nodeId = "n", fun _ => none, fun _ => none, fun _ => .empty⟩

def noSchedules (config : Option Config) : Bool :=
  match schedulesOf config with
  | .arr [] => true
  | _ => false

/-- Where schedules are written back, there are none. -/
def nothingToKeep (sys : System) : Move Nat String Event → Bool
  | .act t _ =>
    match (sys.threads t).prog with
    | .perform (.upsertConfig nodeId _ _ false) _ =>
      noSchedules (sys.loc t).config && noSchedules (sys.shared.tables.configs nodeId)
    | _ => true
  | .event _ => true

theorem schedulesOf_of_noSchedules {config : Option Config} (h : noSchedules config = true) :
    schedulesOf config = .arr [] := by
  unfold noSchedules at h
  split at h
  · assumption
  · cases h

theorem current_of_nothingToKeep {sys : System} {m : Move Nat String Event}
    (h : nothingToKeep sys m = true) : Current sys m := by
  cases m with
  | act t uuid =>
    rintro nodeId specs schedules ⟨next, hprog⟩
    simp only [nothingToKeep, hprog, Bool.and_eq_true] at h
    rw [schedulesOf_of_noSchedules h.1, schedulesOf_of_noSchedules h.2]
  | event e => trivial

/-- Specs are put before another writer puts schedules. -/
def specsBeforeSchedules : List (Move Nat String Event) :=
  [.event (.start 0 (.putConfig "n" (.arr [.null]) none)), .act 0 "", .act 0 "", .act 0 "",
    .event (.start 1 (.putSchedules "n" (.arr [.null]))), .act 1 ""]

theorem supplied_kept_sample :
    ∃ sys : System, (entriesOf (sys.shared.tables.configs "n")).length = 1 ∧ Kept sys.shared := by
  have hrun : (center.run nothingToKeep (initial oneNode) specsBeforeSchedules).any
      (fun sys => (entriesOf (sys.shared.tables.configs "n")).length = 1) = true := by
    decide +kernel
  obtain ⟨sys, hreach, hone⟩ :=
    Machine.exists_reaches_of_run (fun _ _ => current_of_nothingToKeep) hrun
  exact ⟨sys, of_decide_eq_true hone, (supplied_kept_iff hreach).1⟩

/-! ## A lost entry -/

def onOneNode : CreateSchedule :=
  ⟨"backup", some 60, none, true, ["n"], List.pairwise_singleton _ _⟩

/-- Specs are put while a schedule is created for the node. -/
def specsDuringCreate : List (Move Nat String Event) :=
  [.event (.start 0 (.register "n")), .act 0 "",
    .event (.start 0 (.putConfig "n" (.arr []) none)), .act 0 "", .act 0 "",
    .event (.start 1 (.create onOneNode)), .act 1 "id", .act 1 "", .act 1 "", .act 0 ""]

/-- The config has no entry left, and the schedule has its node. -/
def entryLost (sys : System) : Bool :=
  (entriesOf (sys.shared.tables.configs "n")).isEmpty &&
    !(parseEntries (sys.shared.supplied "n").schedules).isEmpty &&
    decide (sys.shared.tables.state "id" "n" = some .active)

theorem entry_lost :
    ∃ sys, center.Reaches (fun _ _ => True) (initial oneNode) sys ∧ ¬ Kept sys.shared := by
  have hrun : (center.run (fun _ _ => true) (initial oneNode) specsDuringCreate).any
      entryLost = true := by
    decide +kernel
  obtain ⟨sys, hreach, hlost⟩ := Machine.exists_reaches_of_run (fun _ _ _ => trivial) hrun
  refine ⟨sys, hreach, fun hkept => ?_⟩
  rw [entryLost, entriesOf, (hkept "n").2] at hlost
  simp at hlost

end Novbot.Schedules
