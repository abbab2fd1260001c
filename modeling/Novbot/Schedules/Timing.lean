import Novbot.Schedules.Strays

/-!
# Timings that are stored

A timing is validated as an unsigned interval and a text, stored as a signed interval and a column
of at most 128 characters, and written to the configs of nodes as JSON.  What a view shows is what
the next patch or re-resolve writes.

*Columns.*  A request whose text is too long for its column is refused by the database
(`Request.stored`).

*Runs.*  A schedule whose view shows the timing shows it after every operation that does not name
a timing, and what such an operation writes to configs says the timing (`Operation.keeps`).

*Limits.*  The view of a new schedule shows the timing if and only if it fits the columns
(`timing_kept_iff`).
-/

namespace Novbot.Schedules

open Text

/-! ## Columns -/

/-- A column `VARCHAR(128)` takes the text. -/
def varchar128 (text : String) : Bool := text.length ≤ 128

/-- The columns of `target_schedules` take what the request binds. -/
def Request.columns (tables : Tables) : Request → Bool
  | .create body =>
    varchar128 (String.ofList (trim body.specId.toList)) && (trimmed body.cron).all varchar128
  | .patch id body =>
    (tables.schedules id).all fun current =>
      match body.timing current with
      | .ok timing => timing.cron.all varchar128
      | .error _ => true
  | _ => true

/-- The tables after a request that runs alone.  A text that its column does not take fails it. -/
def Request.stored (request : Request) (uuid : String) (tables : Tables) : Tables :=
  if request.columns tables then request.alone uuid tables else tables

def Operation.stored (tables : Tables) : Operation → Tables
  | .serve request uuid => request.stored uuid tables
  | .get id => refreshRemovedStates id tables

def storedAll (operations : List Operation) (tables : Tables) : Tables :=
  operations.foldl Operation.stored tables

/-! ## What is said of a timing -/

/-- The timing fits the columns. -/
structure Timing.Storable (timing : Timing) : Prop where
  interval : ∀ value, timing.intervalSecs = some value → value < 2 ^ 63
  cron : ∀ text, timing.cron = some text → text.length ≤ 128

/-- Nothing but the timing keeps the schedule from being stored. -/
structure CreateSchedule.Storable (body : CreateSchedule) (uuid : String) (tables : Tables) :
    Prop where
  specId : trim body.specId.toList ≠ []
  column : varchar128 (String.ofList (trim body.specId.toList)) = true
  fresh : tables.schedules uuid = none
  registered : ∀ nodeId ∈ body.frozen, tables.nodes nodeId = true

/-- The view of the schedule shows the timing. -/
def Loads (tables : Tables) (id : String) (timing : Timing) : Prop :=
  ∃ row, tables.schedules id = some row ∧ row.timing = timing

structure Carries (timing : Timing) (entry : Json) : Prop where
  intervalSecs : entry.get "interval_secs" =
    timing.intervalSecs.map fun (value : Nat) => Json.int value
  cron : entry.get "cron" = timing.cron.map Json.str

/-- The entries of the schedule that are new say the timing. -/
def Writes (id : String) (timing : Timing) (before after : Tables) : Prop :=
  ∀ nodeId, ∀ entry ∈ own id (after.configs nodeId),
    entry ∈ own id (before.configs nodeId) ∨ Carries timing entry

/-- The operation does not delete the schedule, and no patch of it names a timing. -/
def Operation.LeavesTiming (id : String) : Operation → Prop
  | .serve (.patch other body) _ => other = id → body.intervalSecs = none ∧
      trimmed body.cron = none ∧ body.clearInterval = false ∧ body.clearCron = false
  | .serve (.delete other) _ => other ≠ id
  | _ => True

/-- The operation is on target schedules. -/
def Operation.onTargets : Operation → Prop
  | .serve request _ => request.direct = false
  | .get _ => True

/-- A new schedule has the timing, and keeps it until an operation names another one. -/
structure KeepsTiming (tables : Tables) (uuid : String) (body : CreateSchedule) (timing : Timing) :
    Prop where
  loads : Loads ((Request.create body).stored uuid tables) uuid timing
  writes : Writes uuid timing tables ((Request.create body).stored uuid tables)
  entries : ∀ nodeId ∈ body.frozen,
    hasSpec (entriesOf (tables.configs nodeId)) (createdRow body timing).specId = false →
    ∃ entry ∈ own uuid (((Request.create body).stored uuid tables).configs nodeId),
      Says (createdRow body timing).specId timing body.enabled entry
  later : ∀ operations : List Operation, (∀ op ∈ operations, op.LeavesTiming uuid) →
    Loads (storedAll operations ((Request.create body).stored uuid tables)) uuid timing ∧
    ∀ op : Operation, op.LeavesTiming uuid → op.onTargets →
      Writes uuid timing (storedAll operations ((Request.create body).stored uuid tables))
        (op.stored (storedAll operations ((Request.create body).stored uuid tables)))

section
variable {tables tables' : Tables} {id uuid nodeId : String} {timing : Timing}

theorem Says.carries {specId : String} {enabled : Bool} {entry : Json}
    (h : Says specId timing enabled entry) : Carries timing entry :=
  ⟨h.intervalSecs, h.cron⟩

theorem writes_of_own (h : ∀ nodeId, own id (tables'.configs nodeId) = own id (tables.configs nodeId)) :
    Writes id timing tables tables' := by
  intro nodeId entry hentry
  rw [h] at hentry
  exact .inl hentry

theorem carries_patchEntry {origin : String} {enabled : Bool} {entry : Json}
    (horigin : hasOrigin origin entry = true) :
    Carries timing (patchEntry origin timing enabled entry) := by
  unfold patchEntry
  rw [if_pos horigin]
  cases entry with
  | obj members =>
    dsimp only
    rw [setTiming]
    constructor
    · rw [Json.get_insert, if_neg (by decide), get_setMember, if_neg (by decide), get_setMember,
        if_pos rfl]
    · rw [Json.get_insert, if_neg (by decide), get_setMember, if_pos rfl]
  | null => cases horigin
  | bool b => cases horigin
  | int n => cases horigin
  | float text => cases horigin
  | str s => cases horigin
  | arr items => cases horigin

/-! ## Validated timings -/

theorem trimmed_again (cron : Option String) : trimmed (trimmed cron) = trimmed cron := by
  cases cron with
  | none => rfl
  | some text =>
    by_cases hempty : String.ofList (trim text.toList) = ""
    · simp [trimmed, Option.filter, hempty]
    · simp [trimmed, Option.filter, hempty, trim_trim]

/-- A validated timing is validated as it is. -/
theorem validateTiming_again {interval : Option Nat} {cron : Option String}
    (h : validateTiming interval cron = .ok timing) :
    validateTiming timing.intervalSecs timing.cron = .ok timing := by
  cases timing_of_validateTiming h
  rw [← h]
  unfold validateTiming
  rw [trimmed_again]

theorem toU64_asI64_iff {value : Nat} : toU64 (asI64 value) = some value ↔ value < 2 ^ 63 := by
  constructor
  · intro h
    by_contra hlarge
    rw [asI64, if_neg hlarge, Int.subNatNat_eq_coe, toU64] at h
    split at h
    · have hvalue := Option.some.inj h
      omega
    · cases h
  · exact toU64_asI64

/-- What is stored reads as it was validated if and only if it fits. -/
theorem timing_createdRow {body : CreateSchedule}
    (htiming : validateTiming body.intervalSecs body.cron = .ok timing) :
    (createdRow body timing).timing = timing ↔
      ∀ value, timing.intervalSecs = some value → value < 2 ^ 63 := by
  constructor
  · intro h value hvalue
    have hinterval := congrArg Timing.intervalSecs h
    rw [Schedule.timing, createdRow, hvalue] at hinterval
    exact toU64_asI64_iff.mp hinterval
  · exact fun hinterval => timing_stored htiming hinterval (createdRow body timing) body.enabled

/-- A patch that names no timing has the timing of the view. -/
theorem patch_timing {body : PatchSchedule} {current : Schedule} {interval : Option Nat}
    {cron : Option String} (htiming : validateTiming interval cron = .ok current.timing)
    (hinterval : body.intervalSecs = none) (hcron : trimmed body.cron = none)
    (hkeep : body.clearInterval = false ∧ body.clearCron = false) :
    body.timing current = .ok current.timing := by
  rw [PatchSchedule.timing, hkeep.1, hkeep.2, hinterval, hcron, if_neg Bool.false_ne_true,
    if_neg Bool.false_ne_true, Option.none_or, Option.none_or]
  exact validateTiming_again htiming

/-! ## One operation -/

theorem refresh_schedules : (refreshRemovedStates id tables).schedules = tables.schedules := by
  have hfold : ∀ (nodeIds : List String) (tables : Tables),
      (nodeIds.foldl (refreshRow id) tables).schedules = tables.schedules := by
    intro nodeIds
    induction nodeIds with
    | nil => exact fun _ => rfl
    | cons nodeId nodeIds ih =>
      intro tables
      rw [List.foldl_cons, ih, refreshRow]
      split
      · rfl
      · rfl
  exact hfold _ _

/-- Another schedule's transaction leaves the schedule and its entries. -/
theorem Confined.keeps {other : String} {locked : List (String × Option Config)}
    (h : Confined other locked tables tables') (hother : other ≠ id) (hloads : Loads tables id timing) :
    Loads tables' id timing ∧ Writes id timing tables tables' := by
  constructor
  · rw [Loads, h.schedules id hother]
    exact hloads
  · exact writes_of_own fun nodeId => own_congr hother (h.others nodeId)

/-- The keys refuse a schedule whose id is taken. -/
theorem fresh_of_create {body : CreateSchedule} {locked : List (String × Option Config)}
    (h : applyAll (createWrites id body timing locked) tables = some tables') :
    tables.schedules id = none := by
  rw [applyAll, createWrites, List.foldlM_cons] at h
  obtain ⟨mid, hmid, -⟩ := Option.bind_eq_some_iff.mp h
  rw [Write.apply] at hmid
  split at hmid
  · next hallowed => exact Option.isNone_iff_eq_none.mp hallowed
  · cases hmid

theorem alone_direct {request : Request} (hdirect : request.direct = true) :
    (request.alone uuid tables).schedules = tables.schedules := by
  cases request with
  | putConfig nodeId specs schedules =>
    rw [alone_putConfig]
    split
    · rfl
    · rfl
  | putSchedules nodeId schedules =>
    rw [alone_putSchedules]
    split
    · show (tables.bare.updateSchedules nodeId schedules).2.tables.schedules = _
      rw [Database.updateSchedules]
      split
      · rfl
      · rfl
    · rfl
  | register nodeId => rfl
  | create body => cases hdirect
  | patch id body => cases hdirect
  | delete id => cases hdirect
  | reResolve id body => cases hdirect

theorem alone_other {request : Request} (hdirect : request.direct = false)
    (hother : ∀ loc : Loc, loc.request = some request → loc.drawn = uuid → loc.target ≠ some id)
    (hloads : Loads tables id timing) :
    Loads (request.alone uuid tables) id timing ∧
      Writes id timing tables (request.alone uuid tables) := by
  rcases @alone_cases uuid tables _ hdirect with hsame | ⟨loc, writes, hrequest, hdrawn, hcommits,
    hlocked, hcommit⟩
  · rw [hsame]
    exact ⟨hloads, writes_of_own fun _ => rfl⟩
  · obtain ⟨other, htarget⟩ := hcommits.target
    refine (hcommits.confined htarget hlocked (applied_of_applyAll hcommit)).keeps ?_ hloads
    rintro rfl
    exact hother loc hrequest hdrawn htarget

theorem patch_keeps {body : PatchSchedule} {interval : Option Nat} {cron : Option String}
    (htiming : validateTiming interval cron = .ok timing)
    (hinterval : ∀ value, timing.intervalSecs = some value → value < 2 ^ 63)
    (hleaves : Operation.LeavesTiming id (.serve (.patch id body) uuid))
    (hloads : Loads tables id timing) :
    Loads ((Request.patch id body).alone uuid tables) id timing ∧
      Writes id timing tables ((Request.patch id body).alone uuid tables) := by
  obtain ⟨row, hrow, rfl⟩ := hloads
  obtain ⟨hnone, hcron, hkeep⟩ := hleaves rfl
  have hbody := patch_timing htiming hnone hcron hkeep
  rw [alone_patch hrow hbody]
  rcases committed_cases (patchWrites id row.timing (body.enabled.getD row.enabled)
    (lockedIn tables (activeIn (tables.scheduleNodes id)))) tables with ⟨-, hsame⟩ | hsome
  · rw [hsame]
    exact ⟨⟨row, hrow, rfl⟩, writes_of_own fun _ => rfl⟩
  · have happlied := applied_of_applyAll hsome
    have hdistinct : ((lockedIn tables (activeIn (tables.scheduleNodes id))).map (·.1)).Nodup := by
      rw [lockedIn_map]
      exact SortedMap.nodup_keys _
    constructor
    · refine ⟨_, (happlied.schedule id).trans ((scheduleAfter_of_within
        (within_groups patchIn_within) _).trans ?_), timing_stored htiming hinterval row
          (body.enabled.getD row.enabled)⟩
      rw [hrow]
      exact if_pos rfl
    · intro nodeId entry hentry
      rw [patch_own hdistinct configs_lockedIn happlied] at hentry
      split at hentry
      · obtain ⟨before, hbefore, rfl⟩ := List.mem_map.mp hentry
        exact .inr (carries_patchEntry (List.mem_filter.mp hbefore).2)
      · exact .inl hentry

theorem reResolve_keeps {body : ReResolve} (hloads : Loads tables id timing) :
    Loads ((Request.reResolve id body).alone uuid tables) id timing ∧
      Writes id timing tables ((Request.reResolve id body).alone uuid tables) := by
  obtain ⟨row, hrow, rfl⟩ := hloads
  have hrefused : (Request.reResolve id body).alone uuid tables = tables →
      Loads ((Request.reResolve id body).alone uuid tables) id row.timing ∧
        Writes id row.timing tables ((Request.reResolve id body).alone uuid tables) := by
    intro hsame
    rw [hsame]
    exact ⟨⟨row, hrow, rfl⟩, writes_of_own fun _ => rfl⟩
  by_cases haccepted : (Request.reResolve id body).Accepted tables
  · obtain ⟨current, hcurrent, hruns⟩ := haccepted
    cases hrow.symm.trans hcurrent
    rcases committed_cases (reResolveWrites id body row
      (lockedIn tables (diffIds row.nodeIds body.live).2)
      (lockedIn tables (diffIds row.nodeIds body.live).1)) tables with ⟨-, hsame⟩ | hsome
    · exact hrefused ((alone_reResolve hrow hruns).trans hsame)
    · have hlocked : ∀ l ∈ lockedIn tables (diffIds row.nodeIds body.live).2 ++
          lockedIn tables (diffIds row.nodeIds body.live).1, tables.configs l.1 = l.2 := fun l hl =>
        (List.mem_append.mp hl).elim (configs_lockedIn l) (configs_lockedIn l)
      have happlied := applied_of_applyAll hsome
      rw [alone_reResolve hrow hruns]
      constructor
      · refine ⟨{ row with nodeIds := body.live, distinct := body.distinct },
          (reResolve_schedule (lockedIn_map _ _) (lockedIn_map _ _) hlocked happlied).trans ?_, rfl⟩
        rw [hrow]
        exact if_pos rfl
      · intro nodeId entry hentry
        rcases reResolve_cases (lockedIn_map _ _) (lockedIn_map _ _) hlocked happlied nodeId with
          ⟨-, hconfig, -⟩ | ⟨-, hconfig, -⟩ | ⟨-, hconfig, -⟩
        · rw [hconfig, own_removeFrom] at hentry
          cases hentry
        · rw [hconfig, own_addTo] at hentry
          split at hentry
          · exact .inl hentry
          · rcases List.mem_append.mp hentry with hentry | hentry
            · exact .inl hentry
            · cases List.mem_singleton.mp hentry
              exact .inr (says_scheduleEntry _ _ _ _).carries
        · rw [hconfig] at hentry
          exact .inl hentry
  · exact hrefused (alone_refused haccepted)

/-- A request that names no timing leaves it, and writes it. -/
theorem alone_keeps {request : Request} {interval : Option Nat} {cron : Option String}
    (htiming : validateTiming interval cron = .ok timing)
    (hinterval : ∀ value, timing.intervalSecs = some value → value < 2 ^ 63)
    (hdirect : request.direct = false)
    (hleaves : Operation.LeavesTiming id (.serve request uuid)) (hloads : Loads tables id timing) :
    Loads (request.alone uuid tables) id timing ∧
      Writes id timing tables (request.alone uuid tables) := by
  have hother : ∀ target, (∀ loc : Loc, loc.request = some request → loc.drawn = uuid →
      loc.target = some target) → target ≠ id → Loads (request.alone uuid tables) id timing ∧
        Writes id timing tables (request.alone uuid tables) := by
    intro target htarget hne
    refine alone_other hdirect (fun loc hrequest hdrawn hsome => hne ?_) hloads
    exact Option.some.inj ((htarget loc hrequest hdrawn).symm.trans hsome)
  cases request with
  | putConfig _ _ _ => cases hdirect
  | putSchedules _ _ => cases hdirect
  | register _ => cases hdirect
  | create body =>
    by_cases hid : uuid = id
    · -- The id is taken, so the keys refuse the schedule.
      subst hid
      rcases @alone_cases uuid tables _ hdirect with hsame | ⟨loc, writes, hrequest, hdrawn,
        hcommits, -, hcommit⟩
      · rw [hsame]
        exact ⟨hloads, writes_of_own fun _ => rfl⟩
      · cases hcommits with
        | create _ _ _ =>
          obtain ⟨row, hrow, -⟩ := hloads
          cases hrow.symm.trans (hdrawn ▸ fresh_of_create hcommit)
        | patch hother _ _ _ => cases hrequest.symm.trans hother
        | delete hother _ => cases hrequest.symm.trans hother
        | reResolve hother _ _ _ _ => cases hrequest.symm.trans hother
    · exact hother uuid (fun loc hrequest hdrawn => by rw [Loc.target, hrequest, ← hdrawn]) hid
  | patch other body =>
    by_cases hid : other = id
    · subst hid
      exact patch_keeps htiming hinterval hleaves hloads
    · exact hother other (fun loc hrequest _ => by rw [Loc.target, hrequest]) hid
  | delete other => exact hother other (fun loc hrequest _ => by rw [Loc.target, hrequest]) hleaves
  | reResolve other body =>
    by_cases hid : other = id
    · subst hid
      exact reResolve_keeps hloads
    · exact hother other (fun loc hrequest _ => by rw [Loc.target, hrequest]) hid

theorem Operation.keeps {op : Operation} {interval : Option Nat} {cron : Option String}
    (htiming : validateTiming interval cron = .ok timing)
    (hinterval : ∀ value, timing.intervalSecs = some value → value < 2 ^ 63)
    (hleaves : op.LeavesTiming id) (hloads : Loads tables id timing) :
    Loads (op.stored tables) id timing ∧ (op.onTargets → Writes id timing tables (op.stored tables)) := by
  cases op with
  | get other =>
    constructor
    · show Loads (refreshRemovedStates other tables) id timing
      rw [Loads, refresh_schedules]
      exact hloads
    · exact fun _ => writes_of_own fun nodeId => congrArg (own id) (congrFun refresh_configs nodeId)
  | serve request uuid =>
    show Loads (request.stored uuid tables) id timing ∧
      (request.direct = false → Writes id timing tables (request.stored uuid tables))
    rw [Request.stored]
    split
    · cases hdirect : request.direct with
      | false =>
        obtain ⟨hafter, hwrites⟩ := alone_keeps htiming hinterval hdirect hleaves hloads
        exact ⟨hafter, fun _ => hwrites⟩
      | true =>
        refine ⟨?_, nofun⟩
        rw [Loads, alone_direct hdirect]
        exact hloads
    · exact ⟨hloads, fun _ => writes_of_own fun _ => rfl⟩

/-! ## A new schedule -/

theorem applyAll_within {writes : List Write} (hrow : (tables.schedules id).isSome = true)
    (hwithin : ∀ write ∈ writes, ∃ nodeId, write.Within id nodeId ∧ tables.nodes nodeId = true) :
    (applyAll writes tables).isSome = true := by
  induction writes generalizing tables with
  | nil => rfl
  | cons write writes ih =>
    obtain ⟨nodeId, hwrite, hnode⟩ := hwithin write List.mem_cons_self
    have hallowed : write.allowed tables = true := by
      cases hwrite with
      | insertConfig => exact hnode
      | setSchedules => rfl
      | upsertNode => rw [Write.allowed, hrow, hnode]; rfl
      | deleteNode => rfl
    rw [applyAll, List.foldlM_cons, Write.apply, if_pos hallowed]
    refine ih ?_ fun write hmem => hwithin write (.tail _ hmem)
    show (write.schedule id (tables.schedules id)).isSome = true
    rw [hwrite.schedule]
    exact hrow

/-- The keys allow a new schedule of registered nodes. -/
theorem create_commits {body : CreateSchedule} (hbody : body.Storable uuid tables) :
    ∃ after, applyAll (createWrites uuid body timing (lockedIn tables body.frozen)) tables =
      some after := by
  rw [← Option.isSome_iff_exists, createWrites, applyAll, List.foldlM_cons, Write.apply, if_pos]
  · have hinserted : ((Write.insertSchedule uuid (createdRow body timing)).schedule uuid
        (tables.schedules uuid)).isSome = true := by
      rw [Write.schedule, if_pos rfl]
      rfl
    refine applyAll_within hinserted ?_
    intro write hwrite
    obtain ⟨l, hl, hwrite⟩ := List.mem_flatMap.mp hwrite
    refine ⟨l.1, addTo_within l write hwrite, hbody.registered l.1 ?_⟩
    exact lockedIn_map tables body.frozen ▸ List.mem_map_of_mem hl
  · exact Option.isNone_iff_eq_none.mpr hbody.fresh

theorem create_kept {body : CreateSchedule}
    (htiming : validateTiming body.intervalSecs body.cron = .ok timing)
    (hbody : body.Storable uuid tables) (hfits : timing.Storable) : KeepsTiming tables uuid body timing := by
  have hcolumns : (Request.create body).columns tables = true := by
    rw [Request.columns, hbody.column, Bool.true_and, Option.all_eq_true]
    cases timing_of_validateTiming htiming
    exact fun text htext => decide_eq_true (hfits.cron text htext)
  obtain ⟨after, hafter⟩ := @create_commits tables uuid timing body hbody
  have hstored : (Request.create body).stored uuid tables = after := by
    rw [Request.stored, if_pos hcolumns, alone_create hbody.specId htiming, committed, hafter]
    rfl
  have happlied := applied_of_applyAll hafter
  have hdistinct : ((lockedIn tables body.frozen).map (·.1)).Nodup := by
    rw [lockedIn_map]
    exact body.distinct
  have hcases := create_cases hdistinct configs_lockedIn happlied
  have hloads : Loads after uuid timing := by
    refine ⟨createdRow body timing, ?_, (timing_createdRow htiming).mpr hfits.interval⟩
    rw [happlied.schedule]
    exact (scheduleAfter_of_within (within_groups addTo_within) _).trans (if_pos rfl)
  have hlater : ∀ operations : List Operation, (∀ op ∈ operations, op.LeavesTiming uuid) →
      ∀ tables, Loads tables uuid timing → Loads (storedAll operations tables) uuid timing := by
    intro operations
    induction operations with
    | nil => exact fun _ _ h => h
    | cons op operations ih =>
      intro hleaves tables h
      have hfirst := Operation.keeps htiming hfits.interval (hleaves op List.mem_cons_self) h
      exact ih (fun op hop => hleaves op (.tail _ hop)) _ hfirst.1
  constructor
  · rw [hstored]
    exact hloads
  · intro nodeId entry hentry
    rw [hstored] at hentry
    rcases hcases nodeId with ⟨-, -, hown⟩ | ⟨-, -, hown⟩
    · rw [hown] at hentry
      split at hentry
      · exact .inl hentry
      · rcases List.mem_append.mp hentry with hentry | hentry
        · exact .inl hentry
        · cases List.mem_singleton.mp hentry
          exact .inr (says_scheduleEntry _ _ _ _).carries
    · rw [hown] at hentry
      exact .inl hentry
  · intro nodeId hmem hspec
    rw [hstored]
    rw [← lockedIn_map tables body.frozen] at hmem
    obtain ⟨-, -, hown⟩ := (hcases nodeId).resolve_right fun h => h.1 hmem
    rw [hown, hspec, if_neg Bool.false_ne_true]
    exact ⟨_, List.mem_append_right _ (List.mem_singleton_self _), says_scheduleEntry _ _ _ _⟩
  · intro operations hleaves
    rw [hstored]
    have hrun := hlater operations hleaves after hloads
    exact ⟨hrun, fun op hop => (Operation.keeps htiming hfits.interval hop hrun).2⟩

/-- A validated timing is kept by every schedule that is created with it, through every run of
operations that name no other one, if and only if its interval is below `2 ^ 63` and its cron
expression has at most 128 characters. -/
theorem timing_kept_iff {interval : Option Nat} {cron : Option String}
    (htiming : validateTiming interval cron = .ok timing) :
    (∀ (tables : Tables) (uuid : String) (body : CreateSchedule), body.intervalSecs = interval →
      body.cron = cron → body.Storable uuid tables → KeepsTiming tables uuid body timing) ↔
      timing.Storable := by
  constructor
  · intro hall
    let body : CreateSchedule := ⟨"spec", interval, cron, true, [], List.nodup_nil⟩
    let tables : Tables := ⟨fun _ => false, fun _ => none, fun _ => none, fun _ => .empty⟩
    have hspec : trim "spec".toList ≠ [] ∧ varchar128 (String.ofList (trim "spec".toList)) = true := by
      decide
    have hbody : body.Storable "" tables := ⟨hspec.1, hspec.2, rfl, nofun⟩
    obtain ⟨row, hrow, hview⟩ := (hall tables "" body rfl rfl hbody).loads
    rw [Request.stored] at hrow
    split at hrow
    · next hcolumns =>
      rw [Request.columns, Bool.and_eq_true, Option.all_eq_true] at hcolumns
      obtain ⟨after, hafter⟩ := @create_commits tables "" timing body hbody
      have happlied := applied_of_applyAll hafter
      rw [alone_create hbody.specId htiming, committed, hafter, Option.getD_some,
        happlied.schedule] at hrow
      cases hrow
      refine ⟨(timing_createdRow htiming).mp hview, ?_⟩
      cases timing_of_validateTiming htiming
      exact fun text htext => of_decide_eq_true (hcolumns.2 text htext)
    · cases hrow
  · rintro hfits tables uuid body rfl rfl hbody
    exact create_kept htiming hbody hfits

end

theorem timing_kept_minute :
    (∀ (tables : Tables) (uuid : String) (body : CreateSchedule), body.intervalSecs = some 60 →
      body.cron = none → body.Storable uuid tables → KeepsTiming tables uuid body ⟨some 60, none⟩) ↔
      Timing.Storable ⟨some 60, none⟩ :=
  timing_kept_iff rfl

/-- An interval above the largest signed one is validated, and the view shows none. -/
theorem large_interval_lost :
    validateTiming (some (2 ^ 63)) none = .ok ⟨some (2 ^ 63), none⟩ ∧
      ¬ KeepsTiming edgeOnly "1" ⟨"acme/sweep", some (2 ^ 63), none, true, ["edge"], by simp⟩
        ⟨some (2 ^ 63), none⟩ := by
  refine ⟨rfl, fun hkept => ?_⟩
  obtain ⟨row, hrow, hview⟩ := hkept.loads
  have hstored : (((Request.create ⟨"acme/sweep", some (2 ^ 63), none, true, ["edge"], by simp⟩).stored
      "1" edgeOnly).schedules "1").map Schedule.timing = some ⟨none, none⟩ := by decide +kernel
  rw [hrow, Option.map_some, hview] at hstored
  cases hstored

end Novbot.Schedules
