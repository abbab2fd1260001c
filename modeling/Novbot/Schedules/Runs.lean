import Novbot.Schedules.Correspondence

/-!
# Runs of requests on target schedules

What a transaction commits, whatever ran before it.  It holds the locks of the configs it
rewrites, so these are as it read them, and the entries of other origins stay
(`Commits.confined`).  When it is undisturbed too, the accounts of its schedule agree
afterwards (`Commits.fits`).
-/

namespace Novbot.Schedules

open Concurrent

/-! ## What is committed -/

/-- A transaction for a schedule stays within it and within the configs that it locked. -/
structure Confined (id : String) (locked : List (String × Option Config))
    (tables tables' : Tables) : Prop where
  others : ∀ nodeId, others id (tables'.configs nodeId) = others id (tables.configs nodeId)
  schedules : ∀ id', id ≠ id' → tables'.schedules id' = tables.schedules id'
  states : ∀ id' nodeId, id ≠ id' → tables'.state id' nodeId = tables.state id' nodeId
  unlocked : ∀ nodeId, nodeId ∉ locked.map (·.1) → tables'.configs nodeId = tables.configs nodeId

variable {loc : Loc} {writes : List Write} {tables tables' : Tables} {id : String}

theorem Commits.distinct (h : Commits loc writes) : (loc.locked.map (·.1)).Nodup := by
  cases h with
  | create _ _ hnodes => exact hnodes ▸ CreateSchedule.distinct _
  | patch _ _ _ hnodes => exact hnodes ▸ SortedMap.nodup_keys _
  | delete _ hnodes => exact hnodes ▸ SortedMap.nodup_keys _
  | @reResolve _ body current dropped joined _ _ hlocked hdropped hjoined =>
    rw [hlocked, List.map_append, hdropped, hjoined]
    refine List.nodup_append.mpr ⟨current.distinct.filter _, body.distinct.filter _, ?_⟩
    rintro nodeId hout _ hin rfl
    exact diffIds_disjoint hin hout

theorem Commits.confined (h : Commits loc writes) (htarget : loc.target = some id)
    (hlocked : ∀ l ∈ loc.locked, tables.configs l.1 = l.2)
    (happlied : Applied writes tables tables') : Confined id loc.locked tables tables' := by
  have hdistinct := h.distinct
  cases h with
  | create hrequest htiming hnodes =>
    simp only [Loc.target, hrequest, Option.some.injEq] at htarget
    subst htarget
    refine ⟨create_others hdistinct hlocked happlied, fun id' hne => ?_, fun id' nodeId hne => ?_,
      fun nodeId hnot => ?_⟩
    · refine (happlied.schedule id').trans ?_
      exact (scheduleAfter_of_within (within_groups addTo_within) _).trans (if_neg hne)
    · exact (happlied.state id' nodeId).trans (stateAfter_groups_of_ne addTo_within hne _)
    · exact (happlied.config nodeId).trans (configAfter_groups_of_not_mem addTo_within hnot _)
  | patch hrequest hschedule htiming hnodes =>
    simp only [Loc.target, hrequest, Option.some.injEq] at htarget
    subst htarget
    refine ⟨patch_others hdistinct hlocked happlied, fun id' hne => ?_, fun id' nodeId hne => ?_,
      fun nodeId hnot => ?_⟩
    · refine (happlied.schedule id').trans ?_
      exact (scheduleAfter_of_within (within_groups patchIn_within) _).trans (if_neg hne)
    · exact (happlied.state id' nodeId).trans (stateAfter_groups_of_ne patchIn_within hne _)
    · exact (happlied.config nodeId).trans (configAfter_groups_of_not_mem patchIn_within hnot _)
  | delete hrequest hnodes =>
    simp only [Loc.target, hrequest, Option.some.injEq] at htarget
    subst htarget
    refine ⟨delete_others hdistinct hlocked happlied, fun id' hne => ?_, fun id' nodeId hne => ?_,
      fun nodeId hnot => ?_⟩
    · rw [happlied.schedule, deleteWrites, scheduleAfter_append,
        scheduleAfter_of_within (within_groups removeFrom_within)]
      exact if_neg hne
    · rw [happlied.state, deleteWrites, stateAfter_append,
        stateAfter_groups_of_ne removeFrom_within hne]
      exact if_neg hne
    · rw [delete_config hdistinct hlocked happlied, if_neg hnot]
  | reResolve hrequest hschedule heq hdropped hjoined =>
    simp only [Loc.target, hrequest, Option.some.injEq] at htarget
    subst htarget
    rw [heq] at hlocked
    refine ⟨reResolve_others hdropped hjoined hlocked happlied, fun id' hne => ?_,
      fun id' nodeId hne => ?_, fun nodeId hnot => ?_⟩
    · refine (happlied.schedule id').trans ((scheduleAfter_append _ _ _ _).trans ?_)
      rw [scheduleAfter_of_within (within_groups addTo_within),
        scheduleAfter_of_within (within_groups dropFrom_within)]
      exact if_neg hne
    · refine (happlied.state id' nodeId).trans ((stateAfter_append _ _ _ _ _).trans ?_)
      rw [stateAfter_groups_of_ne addTo_within hne, stateAfter_groups_of_ne dropFrom_within hne]
      rfl
    · rw [heq, List.map_append, List.mem_append, not_or] at hnot
      refine (happlied.config nodeId).trans ((configAfter_append _ _ _ _).trans ?_)
      rw [configAfter_groups_of_not_mem dropFrom_within hnot.1,
        configAfter_groups_of_not_mem addTo_within hnot.2]
      rfl

/-- A node row needs its schedule. -/
theorem no_upsertNode {writes : List Write} {tables tables' : Tables}
    (h : applyAll writes tables = some tables') (hnone : tables.schedules id = none)
    (hkeep : ∀ write ∈ writes, write.schedule id none = none) (nodeId : String)
    (state : NodeState) : .upsertNode id nodeId state ∉ writes := by
  induction writes generalizing tables with
  | nil => exact List.not_mem_nil
  | cons write writes ih =>
    rw [applyAll, List.foldlM_cons] at h
    obtain ⟨mid, hmid, hrest⟩ := Option.bind_eq_some_iff.mp h
    unfold Write.apply at hmid
    split at hmid
    · next hallowed =>
      cases hmid
      have hlater := ih hrest (by
        show write.schedule id (tables.schedules id) = none
        rw [hnone]
        exact hkeep write List.mem_cons_self) fun write hwrite => hkeep write (.tail _ hwrite)
      intro hmem
      rcases List.mem_cons.mp hmem with rfl | hmem
      · rw [Write.allowed, hnone] at hallowed
        cases hallowed
      · exact hlater hmem
    · cases hmid

theorem reResolve_allowed {body : ReResolve} {current : Schedule}
    {dropped joined : List (String × Option Config)}
    (h : applyAll (reResolveWrites id body current dropped joined) tables = some tables')
    (hnone : tables.schedules id = none) : joined = [] := by
  have hkeep : ∀ write ∈ reResolveWrites id body current dropped joined,
      write.schedule id none = none := by
    intro write hwrite
    rcases List.mem_cons.mp hwrite with rfl | hwrite
    · exact if_pos rfl
    · rcases List.mem_append.mp hwrite with hwrite | hwrite
      · obtain ⟨nodeId, hwithin⟩ := within_groups (@dropFrom_within id) write hwrite
        exact hwithin.schedule id none
      · obtain ⟨nodeId, hwithin⟩ := within_groups
          (@addTo_within id current.specId current.timing current.enabled) write hwrite
        exact hwithin.schedule id none
  cases joined with
  | nil => rfl
  | cons l joined =>
    refine absurd ?_ (no_upsertNode h hnone hkeep l.1
      (if hasSpec (entriesOf l.2) current.specId then .skippedExists else .active))
    refine List.mem_cons_of_mem _ (List.mem_append_right _ (List.mem_flatMap.mpr ⟨l, ?_, ?_⟩))
    · exact List.mem_cons_self
    · unfold addTo
      refine List.mem_append_right _ ?_
      split
      · exact List.mem_singleton_self _
      · exact List.mem_cons_of_mem _ (List.mem_singleton_self _)

theorem Commits.fits (h : Commits loc writes) (htarget : loc.target = some id)
    (hlocked : ∀ l ∈ loc.locked, tables.configs l.1 = l.2)
    (happly : applyAll writes tables = some tables') (hview : Undisturbed tables loc)
    (hfits : ∀ nodeId, Fits (tables.schedules id) (tables.state id nodeId)
      (own id (tables.configs nodeId))) (nodeId : String) :
    Fits (tables'.schedules id) (tables'.state id nodeId) (own id (tables'.configs nodeId)) := by
  have hdistinct := h.distinct
  have happlied := applied_of_applyAll happly
  cases h with
  | create hrequest htiming hnodes =>
    simp only [Loc.target, hrequest, Option.some.injEq] at htarget
    subst htarget
    rw [Undisturbed, hrequest] at hview
    have hnone : tables.schedules loc.drawn = none := by
      rw [createWrites, applyAll, List.foldlM_cons] at happly
      obtain ⟨mid, hmid, -⟩ := Option.bind_eq_some_iff.mp happly
      unfold Write.apply at hmid
      split at hmid
      · next hallowed => exact Option.isNone_iff_eq_none.mp hallowed
      · cases hmid
    exact create_fits hdistinct hlocked happlied hnodes htiming hnone hview (hfits nodeId)
  | patch hrequest hschedule htiming hnodes =>
    simp only [Loc.target, hrequest, Option.some.injEq] at htarget
    subst htarget
    rw [Undisturbed, hrequest] at hview
    refine patch_fits hdistinct hlocked happlied htiming (fun schedule hrow hactive => ?_)
      (hfits nodeId)
    rw [hnodes]
    exact hview _ schedule _ nodeId hschedule hrow htiming hactive
  | delete hrequest hnodes =>
    simp only [Loc.target, hrequest, Option.some.injEq] at htarget
    subst htarget
    rw [Undisturbed, hrequest] at hview
    refine delete_fits hdistinct hlocked happlied (fun hactive => ?_) (hfits nodeId)
    rw [hnodes]
    exact hview nodeId hactive
  | reResolve hrequest hschedule heq hdropped hjoined =>
    simp only [Loc.target, hrequest, Option.some.injEq] at htarget
    subst htarget
    rw [Undisturbed, hrequest] at hview
    rw [heq] at hlocked
    refine reResolve_fits hdropped hjoined hlocked happlied
      (fun schedule hrow => hview _ schedule hschedule hrow nodeId) (fun hnone => ?_)
      (hfits nodeId)
    rw [← hjoined, reResolve_allowed happly hnone]
    rfl

/-! ## Entries of the operator -/

/-- No target schedule wrote the entry. -/
def byOperator (entry : Json) : Bool :=
  match (entry.get "origin").bind Json.asStr with
  | some origin => !("sch_".toList.isPrefixOf origin.toList)
  | none => true

theorem byOperator_of_hasOrigin {entry : Json} (h : hasOrigin (originOf id) entry = true) :
    byOperator entry = false := by
  rw [hasOrigin, beq_iff_eq] at h
  rw [byOperator, h]
  dsimp only
  rw [originOf, String.toList_append, List.isPrefixOf_iff_prefix.mpr (List.prefix_append _ _)]
  rfl

theorem operator_of_others {config config' : Option Config}
    (h : others id config' = others id config) :
    (entriesOf config').filter byOperator = (entriesOf config).filter byOperator := by
  have hsplit : ∀ config, (entriesOf config).filter byOperator =
      (others id config).filter byOperator := by
    intro config
    unfold others
    rw [List.filter_filter]
    refine List.filter_congr fun entry _ => ?_
    cases horigin : hasOrigin (originOf id) entry with
    | false => rw [Bool.not_false, Bool.and_true]
    | true => rw [byOperator_of_hasOrigin horigin]; rfl
  rw [hsplit, hsplit, h]

/-! ## The invariant -/

/-- The state of a run that started with `tables`. -/
structure Invariant (tables : Tables) (db : Database) (locs : Nat → Loc) : Prop where
  fits : ∀ id nodeId, Fits (db.tables.schedules id) (db.tables.state id nodeId)
    (own id (db.tables.configs nodeId))
  locks : ∀ t, ∀ l ∈ (locs t).locked,
    db.holder (.config l.1) = some t ∧ db.tables.configs l.1 = l.2
  requests : ∀ t request, (locs t).request = some request → request.direct = false
  operator : ∀ nodeId, (entriesOf (db.tables.configs nodeId)).filter byOperator =
    (entriesOf (tables.configs nodeId)).filter byOperator

variable {db db' : Database} {locs : Nat → Loc} {t : Nat}

theorem Invariant.requests_update (h : Invariant tables db locs) {loc : Loc}
    (hrequest : ∀ request, loc.request = some request → request.direct = false) :
    ∀ t' request, (Function.update locs t loc t').request = some request →
      request.direct = false := by
  intro t' request hr
  by_cases ht : t' = t
  · subst ht
    rw [Function.update_self] at hr
    exact hrequest request hr
  · rw [Function.update_of_ne ht] at hr
    exact h.requests t' request hr

/-- A thread that learns something and locks nothing. -/
theorem Invariant.learn (h : Invariant tables db locs) {loc : Loc}
    (hrequest : ∀ request, loc.request = some request → request.direct = false)
    (hlocked : loc.locked = (locs t).locked) :
    Invariant tables db (Function.update locs t loc) := by
  refine ⟨h.fits, fun t' l hl => ?_, h.requests_update hrequest, h.operator⟩
  by_cases ht : t' = t
  · subst ht
    rw [Function.update_self, hlocked] at hl
    exact h.locks t' l hl
  · rw [Function.update_of_ne ht] at hl
    exact h.locks t' l hl

theorem Invariant.lockSchedule (h : Invariant tables db locs) (id : String) :
    Invariant tables (db.lock t (.schedule id)) locs := by
  refine ⟨h.fits, fun t' l hl => ?_, h.requests, h.operator⟩
  obtain ⟨hholder, hconfig⟩ := h.locks t' l hl
  have hne : Key.config l.1 ≠ Key.schedule id := nofun
  exact ⟨(Function.update_of_ne hne (some t) db.holder).trans hholder, hconfig⟩

theorem Invariant.lockConfig (h : Invariant tables db locs) {nodeId : String}
    (hfree : db.free t (.config nodeId) = true) :
    Invariant tables (db.lock t (.config nodeId)) (Function.update locs t { locs t with
      locked := (locs t).locked ++ [(nodeId, db.tables.configs nodeId)] }) := by
  have hholds : ∀ t' : Nat, ∀ name : String, db.holder (.config name) = some t' →
      (db.lock t (.config nodeId)).holder (.config name) = some t' := by
    intro t' name hholder
    by_cases hname : name = nodeId
    · subst hname
      rw [Database.free, hholder] at hfree
      obtain rfl : t' = t := beq_iff_eq.mp hfree
      exact Function.update_self _ _ _
    · refine (Function.update_of_ne (fun heq => hname ?_) _ _).trans hholder
      cases heq
      rfl
  refine ⟨h.fits, fun t' l hl => ?_, h.requests_update (h.requests t), h.operator⟩
  by_cases ht : t' = t
  · subst ht
    rw [Function.update_self] at hl
    rcases List.mem_append.mp hl with hl | hl
    · exact ⟨hholds t' _ (h.locks t' l hl).1, (h.locks t' l hl).2⟩
    · cases List.mem_singleton.mp hl
      exact ⟨Function.update_self _ _ _, rfl⟩
  · rw [Function.update_of_ne ht] at hl
    exact ⟨hholds t' _ (h.locks t' l hl).1, (h.locks t' l hl).2⟩

theorem holder_release {key : Key} {t' : Nat} (h : db.holder key = some t') (hne : t' ≠ t) :
    (db.release t).holder key = some t' := by
  show (if db.holder key = some t then none else db.holder key) = some t'
  rw [h]
  exact if_neg fun heq => hne (Option.some.inj heq)

/-- A transaction that ends without effect. -/
theorem Invariant.release (h : Invariant tables db locs) {loc : Loc} (hlocked : loc.locked = [])
    (hrequest : ∀ request, loc.request = some request → request.direct = false) :
    Invariant tables (db.release t) (Function.update locs t loc) := by
  refine ⟨h.fits, fun t' l hl => ?_, h.requests_update hrequest, h.operator⟩
  by_cases ht : t' = t
  · subst ht
    rw [Function.update_self, hlocked] at hl
    cases hl
  · rw [Function.update_of_ne ht] at hl
    exact ⟨holder_release (h.locks t' l hl).1 ht, (h.locks t' l hl).2⟩

theorem Commits.target (h : Commits loc writes) : ∃ id, loc.target = some id := by
  cases h with
  | create hrequest => exact ⟨_, by rw [Loc.target, hrequest]⟩
  | patch hrequest => exact ⟨_, by rw [Loc.target, hrequest]⟩
  | delete hrequest => exact ⟨_, by rw [Loc.target, hrequest]⟩
  | reResolve hrequest => exact ⟨_, by rw [Loc.target, hrequest]⟩

theorem Invariant.locked (h : Invariant tables db locs) (t : Nat) :
    ∀ l ∈ (locs t).locked, db.tables.configs l.1 = l.2 := fun l hl => (h.locks t l hl).2

theorem Invariant.commit (h : Invariant tables db locs) (hcommits : Commits (locs t) writes)
    (hview : Undisturbed db.tables (locs t)) :
    Invariant tables (db.commit t writes).2
      (Function.update locs t { locs t with locked := [] }) := by
  unfold Database.commit
  cases happly : applyAll writes db.tables with
  | none => exact h.release rfl (h.requests t)
  | some tables' =>
    obtain ⟨id, htarget⟩ := hcommits.target
    have hconfined := hcommits.confined htarget (h.locked t) (applied_of_applyAll happly)
    have hreleased := (h.release rfl (h.requests t) :
      Invariant tables (db.release t) (Function.update locs t { locs t with locked := [] }))
    refine ⟨fun id' nodeId => ?_, fun t' l hl => ?_, hreleased.requests, fun nodeId => ?_⟩
    · by_cases hid : id = id'
      · subst hid
        exact hcommits.fits htarget (h.locked t) happly hview (h.fits id) nodeId
      · dsimp only
        rw [hconfined.schedules id' hid, hconfined.states id' nodeId hid,
          own_congr hid (hconfined.others nodeId)]
        exact h.fits id' nodeId
    · obtain ⟨hholder, hconfig⟩ := hreleased.locks t' l hl
      refine ⟨hholder, (hconfined.unlocked l.1 fun hmem => ?_).trans hconfig⟩
      -- The transaction that ends held this lock, and no other holds it now.
      obtain ⟨l', hl', heq⟩ := List.mem_map.mp hmem
      have hown := (h.locks t l' hl').1
      rw [heq] at hown
      have hnone : (db.release t).holder (.config l.1) = none := if_pos hown
      rw [hnone] at hholder
      cases hholder
    · exact (operator_of_others (hconfined.others nodeId)).trans (h.operator nodeId)

/-- An operation of a request on a target schedule. -/
theorem Invariant.exec (h : Invariant tables db locs) {op : Op} {uuid : String} {reply : op.Reply}
    (hpre : mayPerform op (locs t)) (hview : ∀ writes, op = .commit writes →
      Undisturbed db.tables (locs t))
    (he : Schedules.exec t op uuid db = some (reply, db')) :
    Invariant tables db' (Function.update locs t (note op reply (locs t))) := by
  have hdirect : ¬ ∃ request, (locs t).request = some request ∧ request.direct = true := by
    rintro ⟨request, hrequest, htrue⟩
    rw [h.requests t request hrequest] at htrue
    cases htrue
  cases op with
  | upsertConfig nodeId specs schedules supplied => exact absurd hpre.1 hdirect
  | updateSchedules nodeId schedules => exact absurd hpre hdirect
  | noteEdit nodeId schedules => exact absurd hpre hdirect
  | registerNode nodeId => exact absurd hpre hdirect
  | lockSchedule id =>
    simp only [Schedules.exec] at he
    split at he
    · cases he
      exact h.learn (h.requests t) rfl
    · split at he
      · cases he
        exact (h.lockSchedule id).learn (h.requests t) rfl
      · cases he
  | lockConfig nodeId =>
    simp only [Schedules.exec] at he
    split at he
    · next hfree =>
      cases he
      exact h.lockConfig hfree
    · cases he
  | commit writes =>
    have hdb : (db.commit t writes).2 = db' := congrArg Prod.snd (Option.some.inj he)
    rw [← hdb]
    exact h.commit hpre (hview writes rfl)
  | _ =>
    cases he
    exact h.learn (h.requests t) rfl

/-- No schedule is there, nor an entry that one wrote. -/
structure Empty (tables : Tables) : Prop where
  schedules : ∀ id, tables.schedules id = none
  nodes : ∀ id, tables.scheduleNodes id = .empty
  entries : ∀ nodeId, ∀ entry ∈ entriesOf (tables.configs nodeId), byOperator entry = true

theorem initial_invariant (h : Empty tables) :
    Invariant tables (initial tables).shared (initial tables).loc := by
  refine ⟨fun id nodeId => ?_, fun _ _ hl => (nomatch hl), fun _ _ hr => (nomatch hr),
    fun _ => rfl⟩
  have hown : own id (tables.configs nodeId) = [] := by
    rw [own, List.filter_eq_nil_iff]
    intro entry hentry horigin
    have hoperator := byOperator_of_hasOrigin horigin
    rw [h.entries nodeId entry hentry] at hoperator
    cases hoperator
  show Fits (tables.schedules id) (tables.state id nodeId) (own id (tables.configs nodeId))
  rw [hown, h.schedules, Tables.state, h.nodes]
  exact ⟨rfl, rfl⟩

theorem invariant_of_reaches (h : Empty tables) {sys : System}
    (hreach : center.Reaches undisturbed (initial tables) sys) :
    Invariant tables sys.shared sys.loc := by
  refine hreach.invariant center_obeys (initial_sound tables) (initial_invariant h) ?_ ?_
  · intro sys t op uuid reply shared _ hinv hok hop hpre _ he
    exact hinv.exec hpre (fun writes heq => hok writes (heq ▸ hop)) he
  · intro sys e sys' hr hinv hok hfire
    cases e with
    | start t request =>
      simp only [center, fire] at hfire
      split at hfire
      · next hidle =>
        cases hfire
        rw [Machine.loc_update]
        have hrest : (sys.loc t).locked = [] :=
          (Machine.sound_of_reaches center_obeys (initial_sound tables) hr).rest hidle
        refine hinv.learn (fun request' hrequest => ?_) hrest.symm
        cases hrequest
        exact hok
      · cases hfire
    | abort t =>
      cases hfire
      rw [Machine.loc_update]
      refine hinv.release rfl fun request hrequest => ?_
      cases hrequest

/-- The entries of other origins than the schedule's that a request is about stay. -/
def Frame (sys : System) (t : Nat) (sys' : System) : Prop :=
  ∀ id, (sys.loc t).target = some id → ∀ nodeId,
    others id (sys'.shared.tables.configs nodeId) = others id (sys.shared.tables.configs nodeId)

theorem Invariant.frame {sys sys' : System} {t : Nat} {uuid : String}
    (h : Invariant tables sys.shared sys.loc) (hsound : center.Sound terms sys)
    (hs : center.step sys (.act t uuid) = some sys') : Frame sys t sys' := by
  obtain ⟨op, next, reply, shared, hprog, he, rfl⟩ := center.act_eq_some.mp hs
  intro id htarget nodeId
  have hpre : mayPerform op (sys.loc t) := hsound.pre ⟨next, hprog⟩
  have hdirect : ¬ ∃ request, (sys.loc t).request = some request ∧ request.direct = true := by
    rintro ⟨request, hrequest, htrue⟩
    rw [h.requests t request hrequest] at htrue
    cases htrue
  rw [center.after_shared]
  cases op with
  | upsertConfig nodeId specs schedules supplied => exact absurd hpre.1 hdirect
  | updateSchedules nodeId schedules => exact absurd hpre hdirect
  | noteEdit nodeId schedules => exact absurd hpre hdirect
  | registerNode nodeId => exact absurd hpre hdirect
  | lockSchedule id =>
    simp only [center, Schedules.exec] at he
    split at he
    · cases he
      rfl
    · split at he
      · cases he
        rfl
      · cases he
  | lockConfig nodeId =>
    simp only [center, Schedules.exec] at he
    split at he
    · cases he
      rfl
    · cases he
  | commit writes =>
    have hdb : (sys.shared.commit t writes).2 = shared := congrArg Prod.snd (Option.some.inj he)
    rw [← hdb]
    unfold Database.commit
    cases happly : applyAll writes sys.shared.tables with
    | none => rfl
    | some tables' =>
      exact (Commits.confined hpre htarget (h.locked t) (applied_of_applyAll happly)).others nodeId
  | _ =>
    cases he
    rfl

/-- In every run of requests on target schedules that are undisturbed when they commit,
the entries and the node rows of every schedule agree, and the operator's entries are
those that were there at first.  No request ever changes an entry of another origin. -/
theorem schedules_correspond (hempty : Empty tables) {sys : System}
    (h : center.Reaches undisturbed (initial tables) sys) :
    Corresponds sys.shared.tables ∧
      (∀ nodeId, (entriesOf (sys.shared.tables.configs nodeId)).filter byOperator =
        entriesOf (tables.configs nodeId)) ∧
      ∀ t uuid sys', center.step sys (.act t uuid) = some sys' → Frame sys t sys' := by
  have hinv := invariant_of_reaches hempty h
  have hsound := Machine.sound_of_reaches center_obeys (initial_sound tables) h
  refine ⟨corresponds_of_fits hinv.fits, fun nodeId => ?_, fun t uuid sys' hs => hinv.frame hsound hs⟩
  rw [hinv.operator]
  exact List.filter_eq_self.mpr (hempty.entries nodeId)

/-- Two registered nodes without configs, and no schedules. -/
def twoNodes : Tables :=
  ⟨fun nodeId => nodeId = "n" || nodeId = "m", fun _ => none, fun _ => none, fun _ => .empty⟩

theorem twoNodes_empty : Empty twoNodes := ⟨fun _ => rfl, fun _ => rfl, nofun⟩

/-- What commits is a new schedule with an interval in range. -/
def creates (sys : System) : Move Nat String Event → Bool
  | .act t _ =>
    match (sys.threads t).prog, (sys.loc t).request with
    | .perform (.commit _) _, some (.create body) => body.intervalSecs.all (· < 2 ^ 63)
    | .perform (.commit _) _, _ => false
    | _, _ => true
  | .event (.start _ request) => !request.direct
  | .event (.abort _) => true

theorem undisturbed_of_creates {sys : System} {m : Move Nat String Event}
    (h : creates sys m = true) : undisturbed sys m := by
  cases m with
  | act t uuid =>
    rintro writes ⟨next, hprog⟩
    unfold Undisturbed
    cases hrequest : (sys.loc t).request with
    | none => trivial
    | some request =>
      simp only [creates, hprog, hrequest] at h
      cases request with
      | create body =>
        refine fun nodeId _ => .inr fun interval hinterval => ?_
        dsimp only at h
        rw [hinterval] at h
        exact of_decide_eq_true h
      | _ => cases h
  | event e =>
    cases e with
    | start t request => exact Eq.mp (Bool.not_eq_true' _) h
    | abort t => trivial

/-- A schedule for one node. -/
def createOnN : CreateSchedule := ⟨"backup", some 60, none, true, ["n"], by decide⟩

def created : List (Move Nat String Event) :=
  [.event (.start 0 (.create createOnN)), .act 0 "id", .act 0 "", .act 0 ""]

theorem schedules_correspond_sample :
    ∃ sys : System, sys.shared.tables.state "id" "n" = some .active ∧
      Corresponds sys.shared.tables := by
  have hrun : (center.run creates (initial twoNodes) created).any
      (fun sys => sys.shared.tables.state "id" "n" = some .active) = true := by
    decide +kernel
  obtain ⟨sys, hreach, hactive⟩ :=
    Machine.exists_reaches_of_run (fun _ _ => undisturbed_of_creates) hrun
  exact ⟨sys, of_decide_eq_true hactive, (schedules_correspond twoNodes_empty hreach).1⟩

/-! ## An orphan -/

/-- Only requests on target schedules are started. -/
def targetsOnly (_ : System) : Move Nat String Event → Bool
  | .event (.start _ request) => !request.direct
  | _ => true

def ontoBoth : ReResolve := ⟨["n", "m"], by decide, [], none, false, none⟩

/-- A schedule is deleted from a view that is older than the node it gained. -/
def deletedLate : List (Move Nat String Event) :=
  created ++
  [.event (.start 1 (.delete "id")), .act 1 "", .act 1 "",
    .event (.start 2 (.reResolve "id" ontoBoth)), .act 2 "", .act 2 "", .act 2 "", .act 2 "",
    .act 2 "", .act 2 "", .act 1 "", .act 1 "", .act 1 ""]

def orphaned (sys : System) : Bool :=
  sys.idle 0 && sys.idle 1 && sys.idle 2 && (sys.shared.tables.schedules "id").isNone &&
    (entriesOf (sys.shared.tables.configs "m")).any (hasOrigin (originOf "id"))

theorem entry_orphaned :
    ∃ sys : System, center.Reaches (fun sys m => targetsOnly sys m = true) (initial twoNodes) sys ∧
      (sys.idle 0 ∧ sys.idle 1 ∧ sys.idle 2) ∧ ¬ Corresponds sys.shared.tables := by
  have hrun : (center.run targetsOnly (initial twoNodes) deletedLate).any orphaned = true := by
    decide +kernel
  obtain ⟨sys, hreach, horphan⟩ := Machine.exists_reaches_of_run (fun _ _ h => h) hrun
  simp only [orphaned, Bool.and_eq_true] at horphan
  obtain ⟨⟨⟨⟨hcreate, hdelete⟩, hresolve⟩, hgone⟩, hentry⟩ := horphan
  refine ⟨sys, hreach, ⟨hcreate, hdelete, hresolve⟩, fun hcorresponds => ?_⟩
  obtain ⟨schedule, hsome, -⟩ := (hcorresponds.exactly "id" "m").mp (List.any_eq_true.mp hentry)
  rw [hsome] at hgone
  cases hgone

end Novbot.Schedules
