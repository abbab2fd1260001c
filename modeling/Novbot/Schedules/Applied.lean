import Novbot.Config.Spec
import Novbot.Schedules.Correspondence
import Novbot.Schedules.Specs

/-!
# Configs that the node applies

The center stores specs and schedules as they come, and the node decodes them as a whole.
Operations on target schedules keep what the node can read: they drop entries, write
entries of their own, and change the timing and the flag of an entry that stays.  So a
config is one that the node applies as long as the two requests that supply documents
supply readable ones.
-/

namespace Novbot.Schedules

open Concurrent

/-- The node applies a config, at its generation. -/
def Config.Applies (config : Config) : Prop :=
  ∃ state, Novbot.Config.applyConfig config.generation config.specs config.schedules = .ok state ∧
    state.configGeneration = config.generation ∧ state.configLoaded = true

def specsRead (specs : Json) : Bool := (Novbot.Config.parseSpecs specs).isOk

def schedulesRead (schedules : Json) : Bool := (Novbot.Config.parseSchedules schedules).isOk

def entryRead (entry : Json) : Bool := (Novbot.Config.Schedule.decode entry).isOk

theorem applies_iff {config : Config} :
    config.Applies ↔ specsRead config.specs = true ∧ schedulesRead config.schedules = true :=
  Novbot.Config.applyConfig_ok_iff

theorem schedulesRead_iff {schedules : Json} : schedulesRead schedules = true ↔
    ∃ entries, schedules = .arr entries ∧ ∀ entry ∈ entries, entryRead entry = true :=
  Json.list_isOk_iff

theorem initial_applies : Config.initial.Applies := applies_iff.mpr ⟨rfl, rfl⟩

/-! ## Entries -/

/-- The interval is a `u64`. -/
def Timing.Fits (timing : Timing) : Prop := ∀ value, timing.intervalSecs = some value → value < 2 ^ 64

/-- The node reads an entry as it says. -/
theorem decode_of_says {specId : String} {timing : Timing} {enabled : Bool} {entry : Json}
    (h : Says specId timing enabled entry) (hfits : timing.Fits) :
    Novbot.Config.Schedule.decode entry =
      .ok ⟨specId, timing.intervalSecs, timing.cron, enabled⟩ := by
  obtain ⟨hspec, hinterval, hcron, henabled⟩ := h
  cases entry with
  | obj members =>
    have hspec : members.lookup "spec_id" = some (.str specId) := hspec
    have hinterval : members.lookup "interval_secs" =
        timing.intervalSecs.map fun (value : Nat) => Json.int value := hinterval
    have hcron : members.lookup "cron" = timing.cron.map Json.str := hcron
    have henabled : members.lookup "enabled" = some (.bool enabled) := henabled
    have hread : Json.orDefault (fun name => members.lookup name) "interval_secs"
        Novbot.Config.optionalU64 none = .ok timing.intervalSecs := by
      rw [Json.orDefault, hinterval]
      cases hvalue : timing.intervalSecs with
      | none => rfl
      | some value =>
        have hlt : (value : Int) < 2 ^ 64 := by
          have hfit := hfits value hvalue
          omega
        rw [Option.map_some]
        dsimp only
        rw [Novbot.Config.optionalU64, if_neg (by omega), if_pos hlt, Int.toNat_natCast]
    have hexpr : Json.orDefault (fun name => members.lookup name) "cron"
        (Json.nullable Json.string) none = .ok timing.cron := by
      rw [Json.orDefault, hcron]
      cases timing.cron with
      | none => rfl
      | some expr => rfl
    refine Novbot.Config.Schedule.decode_obj_iff.mpr ⟨?_, hread, hexpr, ?_⟩
    · rw [Json.required, hspec]
      rfl
    · rw [Json.orDefault, henabled]
      rfl
  | null => cases hspec
  | bool b => cases hspec
  | int n => cases hspec
  | float text => cases hspec
  | str s => cases hspec
  | arr items => cases hspec

theorem entryRead_of_says {specId : String} {timing : Timing} {enabled : Bool} {entry : Json}
    (h : Says specId timing enabled entry) (hfits : timing.Fits) : entryRead entry = true := by
  rw [entryRead, decode_of_says h hfits]
  rfl

/-- A patch keeps an entry readable. -/
theorem entryRead_patchEntry {origin : String} {timing : Timing} {enabled : Bool} {entry : Json}
    (h : entryRead entry = true) (hfits : timing.Fits) :
    entryRead (patchEntry origin timing enabled entry) = true := by
  cases horigin : hasOrigin origin entry with
  | false => rwa [patchEntry_other horigin]
  | true =>
    -- what has an origin is an object, so its spec is read by name
    obtain ⟨specId, hspec⟩ : ∃ specId, entry.get "spec_id" = some (.str specId) := by
      cases entry with
      | obj members =>
        unfold entryRead at h
        cases hdecode : Novbot.Config.Schedule.decode (.obj members) with
        | error err =>
          rw [hdecode] at h
          cases h
        | ok schedule =>
          obtain ⟨hspec, -⟩ := Novbot.Config.Schedule.decode_obj_iff.mp hdecode
          unfold Json.required at hspec
          split at hspec
          · next value hvalue =>
            cases value with
            | str specId => exact ⟨specId, hvalue⟩
            | _ => cases hspec
          · cases hspec
      | null => cases horigin
      | bool b => cases horigin
      | int n => cases horigin
      | float text => cases horigin
      | str s => cases horigin
      | arr items => cases horigin
    exact entryRead_of_says (says_patchEntry horigin hspec) hfits

/-! ## Tables -/

/-- The interval is an `i64`, as its column is. -/
def Schedule.Fits (schedule : Schedule) : Prop :=
  ∀ value, schedule.intervalSecs = some value → value < 2 ^ 63

/-- The node applies every config. -/
def ConfigsApply (tables : Tables) : Prop :=
  ∀ nodeId config, tables.configs nodeId = some config → config.Applies

def ColumnsFit (tables : Tables) : Prop :=
  ∀ id schedule, tables.schedules id = some schedule → schedule.Fits

theorem asI64_lt {value : Nat} (h : value < 2 ^ 64) : asI64 value < 2 ^ 63 := by
  unfold asI64
  split
  · omega
  · rw [Int.subNatNat_eq_coe]
    omega

/-- A view shows an interval of a schedule that is a `u64` too. -/
theorem Schedule.Fits.timing {schedule : Schedule} (h : schedule.Fits) : schedule.timing.Fits := by
  intro value hvalue
  obtain ⟨stored, hstored, hread⟩ := Option.bind_eq_some_iff.mp hvalue
  have hlt := h stored hstored
  unfold toU64 at hread
  split at hread
  · cases hread
    omega
  · cases hread

theorem fits_asI64 {timing : Timing} (h : timing.Fits) {value : Int}
    (hvalue : timing.intervalSecs.map asI64 = some value) : value < 2 ^ 63 := by
  obtain ⟨seconds, hseconds, rfl⟩ := Option.map_eq_some_iff.mp hvalue
  exact asI64_lt (h seconds hseconds)

theorem validateTiming_fits {interval : Option Nat} {cron : Option String} {timing : Timing}
    (h : validateTiming interval cron = .ok timing)
    (hinterval : ∀ value, interval = some value → value < 2 ^ 64) : timing.Fits := by
  cases timing_of_validateTiming h
  exact hinterval

/-- The entries of a config that applies are read. -/
theorem entriesOf_read {config : Option Config} (h : ∀ found, config = some found → found.Applies) :
    ∀ entry ∈ entriesOf config, entryRead entry = true := by
  cases config with
  | none => exact fun entry hentry => (nomatch hentry)
  | some config =>
    obtain ⟨-, hschedules⟩ := applies_iff.mp (h config rfl)
    obtain ⟨entries, heq, hread⟩ := schedulesRead_iff.mp hschedules
    intro entry hentry
    rw [entriesOf, schedulesOf, Option.map_some, Option.getD_some, heq] at hentry
    exact hread entry hentry

/-! ## Writes -/

/-- A write keeps what the node applies. -/
def Write.Keeps : Write → Prop
  | .setSchedules _ entries => ∀ entry ∈ entries, entryRead entry = true
  | .insertSchedule _ schedule => schedule.Fits
  | .setTiming _ timing _ => timing.Fits
  | _ => True

section

variable {id specId : String} {timing : Timing} {enabled : Bool} {l : String × Option Config}
  (hlocked : ∀ found, l.2 = some found → found.Applies)

theorem inserted_keeps : ∀ write ∈ inserted l, write.Keeps := by
  intro write hwrite
  unfold inserted at hwrite
  split at hwrite
  · cases List.mem_singleton.mp hwrite
    trivial
  · cases hwrite

include hlocked

theorem addTo_keeps (hfits : timing.Fits) : ∀ write ∈ addTo id specId timing enabled l, write.Keeps := by
  intro write hwrite
  rcases List.mem_append.mp hwrite with hwrite | hwrite
  · exact inserted_keeps write hwrite
  · split at hwrite
    · cases List.mem_singleton.mp hwrite
      trivial
    · rcases List.mem_cons.mp hwrite with rfl | hwrite
      · intro entry hentry
        rcases List.mem_append.mp hentry with hentry | hentry
        · exact entriesOf_read hlocked entry hentry
        · cases List.mem_singleton.mp hentry
          exact entryRead_of_says (says_scheduleEntry _ _ _ _) hfits
      · cases List.mem_singleton.mp hwrite
        trivial

theorem patchIn_keeps (hfits : timing.Fits) : ∀ write ∈ patchIn id timing enabled l, write.Keeps := by
  intro write hwrite
  rcases List.mem_append.mp hwrite with hwrite | hwrite
  · exact inserted_keeps write hwrite
  · split at hwrite
    · cases List.mem_singleton.mp hwrite
      intro entry hentry
      obtain ⟨before, hbefore, rfl⟩ := List.mem_map.mp hentry
      exact entryRead_patchEntry (entriesOf_read hlocked before hbefore) hfits
    · cases hwrite

theorem removeFrom_keeps : ∀ write ∈ removeFrom id l, write.Keeps := by
  intro write hwrite
  rcases List.mem_append.mp hwrite with hwrite | hwrite
  · exact inserted_keeps write hwrite
  · cases List.mem_singleton.mp hwrite
    exact fun entry hentry => entriesOf_read hlocked entry (List.mem_filter.mp hentry).1

theorem dropFrom_keeps : ∀ write ∈ dropFrom id l, write.Keeps := by
  intro write hwrite
  rcases List.mem_append.mp hwrite with hwrite | hwrite
  · exact removeFrom_keeps hlocked write hwrite
  · cases List.mem_singleton.mp hwrite
    trivial

end

theorem Write.Keeps.config {write : Write} (h : write.Keeps) {nodeId : String}
    {config : Option Config} (hconfig : ∀ found, config = some found → found.Applies) :
    ∀ found, write.config nodeId config = some found → found.Applies := by
  intro found hfound
  unfold Write.config at hfound
  split at hfound
  · split at hfound
    · cases hfound
      cases config with
      | none => exact initial_applies
      | some config => exact hconfig config rfl
    · exact hconfig found hfound
  · next other entries =>
    split at hfound
    · obtain ⟨before, hbefore, rfl⟩ := Option.map_eq_some_iff.mp hfound
      obtain ⟨hspecs, -⟩ := applies_iff.mp (hconfig before hbefore)
      exact applies_iff.mpr ⟨hspecs, schedulesRead_iff.mpr ⟨entries, rfl, h⟩⟩
    · exact hconfig found hfound
  · exact hconfig found hfound

theorem Write.Keeps.schedule {write : Write} (h : write.Keeps) {id : String}
    {schedule : Option Schedule} (hschedule : ∀ found, schedule = some found → found.Fits) :
    ∀ found, write.schedule id schedule = some found → found.Fits := by
  intro found hfound
  unfold Write.schedule at hfound
  split at hfound
  · split at hfound
    · cases hfound
      exact h
    · exact hschedule found hfound
  · split at hfound
    · obtain ⟨before, -, rfl⟩ := Option.map_eq_some_iff.mp hfound
      exact fun value hvalue => fits_asI64 h hvalue
    · exact hschedule found hfound
  · split at hfound
    · obtain ⟨before, hbefore, rfl⟩ := Option.map_eq_some_iff.mp hfound
      exact hschedule before hbefore
    · exact hschedule found hfound
  · split at hfound
    · cases hfound
    · exact hschedule found hfound
  · exact hschedule found hfound

/-- A transaction of such writes keeps what the node applies. -/
theorem applyAll_keeps {writes : List Write} {tables tables' : Tables}
    (h : applyAll writes tables = some tables') (hkeeps : ∀ write ∈ writes, write.Keeps)
    (hconfigs : ConfigsApply tables) (hcolumns : ColumnsFit tables) :
    ConfigsApply tables' ∧ ColumnsFit tables' := by
  induction writes generalizing tables with
  | nil =>
    cases h
    exact ⟨hconfigs, hcolumns⟩
  | cons write writes ih =>
    rw [applyAll, List.foldlM_cons] at h
    obtain ⟨mid, hmid, hrest⟩ := Option.bind_eq_some_iff.mp h
    unfold Write.apply at hmid
    split at hmid
    · cases hmid
      have hwrite := hkeeps write List.mem_cons_self
      exact ih hrest (fun later hlater => hkeeps later (.tail _ hlater))
        (fun nodeId => hwrite.config (hconfigs nodeId)) fun id => hwrite.schedule (hcolumns id)
    · cases hmid

/-! ## Requests -/

/-- The intervals of a request are of type `u64`. -/
def Request.Fits : Request → Prop
  | .create body => ∀ value, body.intervalSecs = some value → value < 2 ^ 64
  | .patch _ body => ∀ value, body.intervalSecs = some value → value < 2 ^ 64
  | _ => True

/-- The node applies the configs that a thread has read. -/
structure Loc.Reads (loc : Loc) : Prop where
  request : ∀ request, loc.request = some request → request.Fits
  config : ∀ config, loc.config = some config → config.Applies
  schedule : ∀ schedule, loc.schedule = some schedule → schedule.Fits
  locked : ∀ l ∈ loc.locked, ∀ config, l.2 = some config → config.Applies

theorem fresh_reads {request : Option Request} (h : ∀ found, request = some found → found.Fits) :
    (Loc.fresh request).Reads where
  request := h
  config _ hconfig := nomatch hconfig
  schedule _ hschedule := nomatch hschedule
  locked _ hl := nomatch hl

section

variable {loc : Loc} {writes : List Write} {db db' : Database} {t : Nat} {op : Op} {uuid : String}
  {reply : op.Reply}

theorem Commits.keeps (h : Commits loc writes) (hloc : loc.Reads) : ∀ write ∈ writes, write.Keeps := by
  intro write hwrite
  cases h with
  | create hrequest htiming hnodes =>
    have hfits := validateTiming_fits htiming (hloc.request _ hrequest)
    rcases List.mem_cons.mp hwrite with rfl | hwrite
    · exact fun value hvalue => fits_asI64 hfits hvalue
    · obtain ⟨l, hl, hwrite⟩ := List.mem_flatMap.mp hwrite
      exact addTo_keeps (hloc.locked l hl) hfits write hwrite
  | @patch id body current timing hrequest hschedule htiming hnodes =>
    have hfits : timing.Fits := by
      refine validateTiming_fits htiming fun value hvalue => ?_
      split at hvalue
      · cases hvalue
      · rcases Option.or_eq_some_iff.mp hvalue with hbody | ⟨-, hcurrent⟩
        · exact hloc.request _ hrequest value hbody
        · exact (hloc.schedule _ hschedule).timing value hcurrent
    rcases List.mem_cons.mp hwrite with rfl | hwrite
    · exact hfits
    · obtain ⟨l, hl, hwrite⟩ := List.mem_flatMap.mp hwrite
      exact patchIn_keeps (hloc.locked l hl) hfits write hwrite
  | delete hrequest hnodes =>
    rcases List.mem_append.mp hwrite with hwrite | hwrite
    · obtain ⟨l, hl, hwrite⟩ := List.mem_flatMap.mp hwrite
      exact removeFrom_keeps (hloc.locked l hl) write hwrite
    · cases List.mem_singleton.mp hwrite
      trivial
  | reResolve hrequest hschedule heq hdropped hjoined =>
    have hlocked := hloc.locked
    rw [heq] at hlocked
    rcases List.mem_cons.mp hwrite with rfl | hwrite
    · trivial
    · rcases List.mem_append.mp hwrite with hwrite | hwrite
      · obtain ⟨l, hl, hwrite⟩ := List.mem_flatMap.mp hwrite
        exact dropFrom_keeps (hlocked l (List.mem_append_left _ hl)) write hwrite
      · obtain ⟨l, hl, hwrite⟩ := List.mem_flatMap.mp hwrite
        exact addTo_keeps (hlocked l (List.mem_append_right _ hl))
          (hloc.schedule _ hschedule).timing write hwrite

/-! ## One operation -/

/-- The documents that an operation supplies are ones that the node reads. -/
def Op.Readable (op : Op) (db : Database) : Prop :=
  match op with
  | .upsertConfig _ specs schedules supplied =>
    specsRead specs = true ∧ (supplied = true → schedulesRead schedules = true)
  | .updateSchedules nodeId schedules =>
    (db.tables.configs nodeId).isSome = true → schedulesRead schedules = true
  | _ => True

theorem setConfig_apply_iff (hconfigs : ConfigsApply db.tables) (nodeId : String) (config : Config) :
    ConfigsApply (db.setConfig nodeId config).tables ↔ config.Applies := by
  unfold ConfigsApply Database.setConfig
  dsimp only
  constructor
  · intro h
    exact h nodeId config (Function.update_self ..)
  · intro h other found hfound
    by_cases hother : other = nodeId
    · subst hother
      rw [Function.update_self] at hfound
      cases hfound
      exact h
    · rw [Function.update_of_ne hother] at hfound
      exact hconfigs other found hfound

theorem schedulesOf_read {config : Option Config} (h : ∀ found, config = some found → found.Applies) :
    schedulesRead (schedulesOf config) = true := by
  cases config with
  | none => rfl
  | some config => exact (applies_iff.mp (h config rfl)).2

theorem registerNode_applies (hconfigs : ConfigsApply db.tables) (nodeId : String) :
    ConfigsApply (db.registerNode nodeId).tables := by
  intro other found hfound
  unfold Database.registerNode at hfound
  dsimp only at hfound
  by_cases hother : other = nodeId
  · subst hother
    rw [Function.update_self] at hfound
    cases hfound
    cases hconfig : db.tables.configs other with
    | none => exact initial_applies
    | some config => exact hconfigs other config hconfig
  · rw [Function.update_of_ne hother] at hfound
    exact hconfigs other found hfound

theorem commit_applies (h : Commits loc writes) (hloc : loc.Reads) (hconfigs : ConfigsApply db.tables)
    (hcolumns : ColumnsFit db.tables) :
    ConfigsApply (db.commit t writes).2.tables ∧ ColumnsFit (db.commit t writes).2.tables := by
  unfold Database.commit
  cases happly : applyAll writes db.tables with
  | none => exact ⟨hconfigs, hcolumns⟩
  | some tables => exact applyAll_keeps happly (h.keeps hloc) hconfigs hcolumns

/-- After an operation the node applies every config exactly when it reads what the
operation supplies. -/
theorem exec_apply_iff (hpre : mayPerform op loc) (hloc : loc.Reads)
    (hconfigs : ConfigsApply db.tables) (hcolumns : ColumnsFit db.tables)
    (he : exec t op uuid db = some (reply, db')) :
    (ConfigsApply db'.tables ↔ op.Readable db) ∧ ColumnsFit db'.tables := by
  cases op with
  | upsertConfig nodeId specs schedules supplied =>
    simp only [exec] at he
    split at he
    case isFalse => cases he
    case isTrue =>
      cases he
      refine ⟨(setConfig_apply_iff hconfigs nodeId _).trans (applies_iff.trans ?_), hcolumns⟩
      refine and_congr Iff.rfl ⟨fun h _ => h, fun h => ?_⟩
      cases supplied with
      | true => exact h rfl
      | false =>
        have hkept : schedules = schedulesOf loc.config := hpre.2 rfl
        rw [hkept]
        exact schedulesOf_read hloc.config
  | updateSchedules nodeId schedules =>
    simp only [exec] at he
    split at he
    case isFalse => cases he
    case isTrue =>
      have hdb : (db.updateSchedules nodeId schedules).2 = db' := congrArg Prod.snd (Option.some.inj he)
      rw [← hdb, Op.Readable, Database.updateSchedules]
      cases hconfig : db.tables.configs nodeId with
      | none => exact ⟨iff_of_true hconfigs fun h => Bool.noConfusion h, hcolumns⟩
      | some config =>
        obtain ⟨hspecs, -⟩ := applies_iff.mp (hconfigs nodeId config hconfig)
        refine ⟨(setConfig_apply_iff hconfigs nodeId _).trans (applies_iff.trans ?_), hcolumns⟩
        exact ⟨fun h _ => h.2, fun h => ⟨hspecs, h rfl⟩⟩
  | registerNode nodeId =>
    simp only [exec] at he
    split at he
    · cases he
      exact ⟨iff_of_true (registerNode_applies hconfigs nodeId) trivial, hcolumns⟩
    · cases he
  | lockSchedule id =>
    simp only [exec] at he
    split at he
    · cases he
      exact ⟨iff_of_true hconfigs trivial, hcolumns⟩
    · split at he
      · cases he
        exact ⟨iff_of_true hconfigs trivial, hcolumns⟩
      · cases he
  | lockConfig nodeId =>
    simp only [exec] at he
    split at he
    · cases he
      exact ⟨iff_of_true hconfigs trivial, hcolumns⟩
    · cases he
  | commit writes =>
    have hdb : (db.commit t writes).2 = db' := congrArg Prod.snd (Option.some.inj he)
    obtain ⟨happlies, hfit⟩ := @commit_applies loc writes db t hpre hloc hconfigs hcolumns
    rw [← hdb]
    exact ⟨iff_of_true happlies trivial, hfit⟩
  | _ =>
    cases he
    exact ⟨iff_of_true hconfigs trivial, hcolumns⟩

theorem note_reads (hloc : loc.Reads) (hconfigs : ConfigsApply db.tables)
    (hcolumns : ColumnsFit db.tables) (he : exec t op uuid db = some (reply, db')) :
    (note op reply loc).Reads := by
  cases op with
  | readConfig nodeId =>
    cases he
    exact { hloc with config := hconfigs nodeId }
  | readSchedule id =>
    cases he
    exact { hloc with schedule := hcolumns id }
  | lockConfig nodeId =>
    simp only [exec] at he
    split at he
    · cases he
      refine { hloc with locked := fun l hl config hconfig => ?_ }
      rcases List.mem_append.mp hl with hl | hl
      · exact hloc.locked l hl config hconfig
      · cases List.mem_singleton.mp hl
        exact hconfigs nodeId config hconfig
    · cases he
  | commit writes => exact { hloc with locked := fun _ hl => absurd hl List.not_mem_nil }
  | _ => exact ⟨hloc.request, hloc.config, hloc.schedule, hloc.locked⟩

end

/-! ## Runs -/

/-- The numbers of a request have their types. -/
def Typed : Move Nat String Event → Prop
  | .act _ _ => True
  | .event (.start _ request) => request.Fits
  | .event (.abort _) => True

/-- The node reads the documents that an operation supplies. -/
def Readable (sys : System) : Move Nat String Event → Prop
  | .act t _ => ∀ op, sys.about t op → op.Readable sys.shared
  | .event _ => True

/-- The node applies the configs, and those that are read. -/
structure Applying (sys : System) : Prop where
  configs : ConfigsApply sys.shared.tables
  columns : ColumnsFit sys.shared.tables
  read : ∀ t, (sys.loc t).Reads

theorem Applying.step_iff {sys sys' : System} {m : Move Nat String Event} (h : Applying sys)
    (hsound : center.Sound terms sys) (htyped : Typed m) (hs : center.step sys m = some sys') :
    (ConfigsApply sys'.shared.tables ↔ Readable sys m) ∧ ColumnsFit sys'.shared.tables ∧
      ∀ t, (sys'.loc t).Reads := by
  have hread : ∀ {t : Nat} {loc : Loc}, loc.Reads → ∀ t', (Function.update sys.loc t loc t').Reads := by
    intro t loc hloc t'
    by_cases heq : t' = t
    · subst heq
      rw [Function.update_self]
      exact hloc
    · rw [Function.update_of_ne heq]
      exact h.read t'
  cases m with
  | act t uuid =>
    obtain ⟨op, next, reply, shared, hprog, he, rfl⟩ := center.act_eq_some.mp hs
    have habout : sys.about t op := ⟨next, hprog⟩
    obtain ⟨hiff, hcolumns⟩ := exec_apply_iff (hsound.pre habout) (h.read t) h.configs h.columns he
    rw [center.after_shared, center.after_loc]
    refine ⟨hiff.trans ⟨fun hop op' hop' => ?_, fun hall => hall op habout⟩, hcolumns,
      hread (note_reads (h.read t) h.configs h.columns he)⟩
    obtain ⟨next', hnext⟩ := hop'
    rw [hprog] at hnext
    cases hnext
    exact hop
  | event e =>
    cases e with
    | start t request =>
      simp only [Machine.step, center, fire] at hs
      split at hs
      · cases hs
        rw [Machine.loc_update]
        refine ⟨iff_of_true h.configs trivial, h.columns, hread (fresh_reads fun found hfound => ?_)⟩
        cases hfound
        exact htyped
      · cases hs
    | abort t =>
      cases hs
      rw [Machine.loc_update]
      exact ⟨iff_of_true h.configs trivial, h.columns,
        hread (fresh_reads fun _ hfound => absurd hfound.symm (Option.some_ne_none _))⟩

theorem applying_of_reaches {tables : Tables} (hconfigs : ConfigsApply tables)
    (hcolumns : ColumnsFit tables) {sys : System}
    (h : center.Reaches (fun sys m => Typed m ∧ Readable sys m) (initial tables) sys) : Applying sys := by
  induction h with
  | refl => exact ⟨hconfigs, hcolumns, fun _ => fresh_reads nofun⟩
  | step hr hok hs ih =>
    obtain ⟨hiff, hfit, hread⟩ :=
      ih.step_iff (Machine.sound_of_reaches center_obeys (initial_sound tables) hr) hok.1 hs
    exact ⟨hiff.mpr hok.2, hfit, hread⟩

/-- In every run of requests in which each supplied document is one that the node reads,
the node applies every config, and the next move keeps it so exactly when it supplies
readable documents too. -/
theorem configs_apply_iff {tables : Tables} (hconfigs : ConfigsApply tables)
    (hcolumns : ColumnsFit tables) {sys : System}
    (h : center.Reaches (fun sys m => Typed m ∧ Readable sys m) (initial tables) sys) :
    ConfigsApply sys.shared.tables ∧ ∀ m sys', Typed m → center.step sys m = some sys' →
      (ConfigsApply sys'.shared.tables ↔ Readable sys m) := by
  have happlying := applying_of_reaches hconfigs hcolumns h
  have hsound := Machine.sound_of_reaches center_obeys (initial_sound tables) h
  exact ⟨happlying.configs, fun _ _ htyped hs => (happlying.step_iff hsound htyped hs).1⟩

/-! ## Two configurations -/

def typedMove : Move Nat String Event → Bool
  | .event (.start _ (.create body)) => body.intervalSecs.all (· < 2 ^ 64)
  | .event (.start _ (.patch _ body)) => body.intervalSecs.all (· < 2 ^ 64)
  | _ => true

theorem typed_of_typedMove {m : Move Nat String Event} (h : typedMove m = true) : Typed m := by
  have hall : ∀ interval : Option Nat, interval.all (· < 2 ^ 64) = true →
      ∀ value, interval = some value → value < 2 ^ 64 := by
    rintro _ hinterval value rfl
    exact of_decide_eq_true hinterval
  cases m with
  | act t uuid => trivial
  | event e =>
    cases e with
    | start t request =>
      cases request with
      | create body => exact hall body.intervalSecs h
      | patch id body => exact hall body.intervalSecs h
      | _ => trivial
    | abort t => trivial

/-- A check of the moves that supply documents. -/
def suppliesRead (sys : System) (m : Move Nat String Event) : Bool :=
  typedMove m &&
    match m with
    | .act t _ =>
      match (sys.threads t).prog with
      | .perform (.upsertConfig _ specs schedules supplied) _ =>
        specsRead specs && (!supplied || schedulesRead schedules)
      | .perform (.updateSchedules _ schedules) _ => schedulesRead schedules
      | _ => true
    | .event _ => true

theorem readable_of_suppliesRead {sys : System} {m : Move Nat String Event}
    (h : suppliesRead sys m = true) : Typed m ∧ Readable sys m := by
  obtain ⟨htyped, h⟩ := Bool.and_eq_true_iff.mp h
  refine ⟨typed_of_typedMove htyped, ?_⟩
  cases m with
  | act t uuid =>
    rintro op ⟨next, hprog⟩
    simp only [hprog] at h
    cases op with
    | upsertConfig nodeId specs schedules supplied =>
      obtain ⟨hspecs, hschedules⟩ := Bool.and_eq_true_iff.mp h
      refine ⟨hspecs, fun hsupplied => ?_⟩
      rw [hsupplied] at hschedules
      exact hschedules
    | updateSchedules nodeId schedules => exact fun _ => h
    | _ => trivial
  | event e => trivial

/-- The specs of a node with one spec of a kind. -/
def oneSpec (kind : String) : Json := .arr [.obj [("id", .str "load"), ("kind", .str kind)]]

/-- Specs are put, and then a schedule is created for the node. -/
def specsThenCreate (kind : String) : List (Move Nat String Event) :=
  [.event (.start 0 (.putConfig "n" (oneSpec kind) none)), .act 0 "", .act 0 "", .act 0 "",
    .event (.start 1 (.create onOneNode)), .act 1 "id", .act 1 "", .act 1 ""]

theorem configs_apply_cpu :
    ∃ sys : System, (entriesOf (sys.shared.tables.configs "n")).length = 1 ∧
      ConfigsApply sys.shared.tables := by
  have hrun : (center.run suppliesRead (initial oneNode) (specsThenCreate "cpu")).any
      (fun sys => (entriesOf (sys.shared.tables.configs "n")).length = 1) = true := by
    decide +kernel
  obtain ⟨sys, hreach, hone⟩ :=
    Machine.exists_reaches_of_run (fun _ _ => readable_of_suppliesRead) hrun
  have hconfigs : ConfigsApply oneNode := fun _ _ h => by cases h
  have hcolumns : ColumnsFit oneNode := fun _ _ h => by cases h
  exact ⟨sys, of_decide_eq_true hone, (configs_apply_iff hconfigs hcolumns hreach).1⟩

/-- The center accepts a spec of a kind that no node has, and the node applies no config
from then on, the one with the entry of a later schedule among them. -/
theorem unknown_kind_accepted :
    ∃ sys, center.Reaches (fun _ m => Typed m) (initial oneNode) sys ∧
      (entriesOf (sys.shared.tables.configs "n")).length = 1 ∧
      ¬ ConfigsApply sys.shared.tables := by
  have hrun : (center.run (fun _ => typedMove) (initial oneNode)
      (specsThenCreate "load_average")).any (fun sys =>
        (entriesOf (sys.shared.tables.configs "n")).length = 1 &&
          (sys.shared.tables.configs "n").any fun config => !specsRead config.specs) = true := by
    decide +kernel
  obtain ⟨sys, hreach, hcheck⟩ :=
    Machine.exists_reaches_of_run (fun _ _ => typed_of_typedMove) hrun
  obtain ⟨hone, hunread⟩ := Bool.and_eq_true_iff.mp hcheck
  refine ⟨sys, hreach, of_decide_eq_true hone, fun happlies => ?_⟩
  obtain ⟨config, hconfig, hspecs⟩ := (Option.any_eq_true _ _).mp hunread
  rw [(applies_iff.mp (happlies "n" config hconfig)).1] at hspecs
  cases hspecs

end Novbot.Schedules
