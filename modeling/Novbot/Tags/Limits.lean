import Novbot.Tags.Stored

/-!
# The center's tags under concurrent requests

A transaction that changes a node's tags holds the lock of the node from before it reads
them until it ends, so what it read first is what is committed when it commits
(`Inv.fresh`), and a conditional change compares with the committed value
(`conditional_set_compares`).  A bulk change reads its later nodes from the snapshot of its
first read, which may be older than their locks.  `center_tags_limited` says that the limit
holds in every run where no such read is behind, and `limit_exceeded` has a run where one is.
-/

namespace Novbot.Tags

open Concurrent

section
variable {fold : String → String}

/-! ## What a write does to the center's values -/

theorem centerValue_fetchTags {tables : Tables} {nodeId key : String} :
    centerValue (fetchTags fold tables nodeId) key =
      (tables.tags.find? fun row => row.holds fold nodeId .center key).map (·.tag.value) := by
  rw [centerValue, fetchTags, List.find?_map, List.find?_filter, Option.map_map]
  congr 2
  funext row
  rw [Bool.eq_iff_iff]
  simp [TagRow.holds, and_assoc]

/-- The write is for a center tag of the node. -/
def Write.touches (fold : String → String) (nodeId : String) : Write → Prop
  | .insertTag other tag => tag.source = .center ∧ fold other = fold nodeId
  | .deleteCenter other _ => fold other = fold nodeId
  | _ => False

theorem centerValue_insertTag {tables : Tables} {other nodeId key : String} {tag : StoredTag} :
    centerValue (fetchTags fold (Write.apply fold tables (.insertTag other tag)) nodeId) key =
      if tag.source = .center ∧ fold other = fold nodeId ∧ tag.key = key then some tag.value
      else centerValue (fetchTags fold tables nodeId) key := by
  rw [centerValue_fetchTags, centerValue_fetchTags, Write.apply]
  dsimp only
  have hsame : ∀ row : TagRow, row.holds fold nodeId .center key = true →
      (row.holds fold other tag.source tag.key = true ↔
        tag.source = .center ∧ fold other = fold nodeId ∧ tag.key = key) := by
    intro row hrow
    obtain ⟨hnode, hsource, hkey⟩ := holds_iff.mp hrow
    rw [holds_iff, hnode, hsource, hkey]
    exact ⟨fun ⟨ha, hb, hc⟩ => ⟨hb.symm, ha.symm, hc.symm⟩,
      fun ⟨ha, hb, hc⟩ => ⟨hb.symm, ha.symm, hc.symm⟩⟩
  rw [insertTag]
  split
  · next hany =>
    obtain ⟨old, hold, hheld⟩ := List.any_eq_true.mp hany
    rw [List.find?_map]
    have hkeeps : ((fun row : TagRow => row.holds fold nodeId .center key) ∘ fun row =>
        if row.holds fold other tag.source tag.key = true then
          (⟨row.nodeId, row.tag.key, tag.value, row.tag.source, tag.valid, tag.invalidReason⟩ :
            TagRow)
        else row) = fun row => row.holds fold nodeId .center key := by
      funext row
      simp only [Function.comp_apply]
      split <;> rfl
    rw [hkeeps, Option.map_map]
    cases hfind : tables.tags.find? fun row => row.holds fold nodeId .center key with
    | none =>
      rw [if_neg]
      · rfl
      · rintro ⟨hsource, hnode, hkey⟩
        have hno := List.find?_eq_none.mp hfind old hold
        rw [hsource, hkey] at hheld
        exact hno (holds_iff.mpr ((holds_iff.mp hheld).imp_left fun h => h.trans hnode))
    | some row =>
      have hrow : row.holds fold nodeId .center key = true :=
        List.find?_some (p := fun row : TagRow => row.holds fold nodeId .center key) hfind
      simp only [Option.map_some, Function.comp_apply]
      by_cases h : tag.source = .center ∧ fold other = fold nodeId ∧ tag.key = key
      · rw [if_pos h, if_pos ((hsame row hrow).mpr h)]
      · rw [if_neg h, if_neg fun hheld => h ((hsame row hrow).mp hheld)]
  · next hnone =>
    rw [List.find?_append]
    by_cases h : tag.source = .center ∧ fold other = fold nodeId ∧ tag.key = key
    · rw [if_pos h]
      have hnew : (⟨other, tag⟩ : TagRow).holds fold nodeId .center key = true :=
        holds_iff.mpr ⟨h.2.1, h.1, h.2.2⟩
      have hold : tables.tags.find? (fun row => row.holds fold nodeId .center key) = none := by
        rw [List.find?_eq_none]
        intro row hrow hheld
        exact hnone (List.any_eq_true.mpr ⟨row, hrow, (hsame row hheld).mpr h⟩)
      simp [hold, hnew]
    · rw [if_neg h]
      have hnew : (⟨other, tag⟩ : TagRow).holds fold nodeId .center key = false := by
        rw [Bool.eq_false_iff]
        intro hheld
        obtain ⟨hnode, hsource, hkey⟩ := holds_iff.mp hheld
        exact h ⟨hsource, hnode, hkey⟩
      simp [hnew]

theorem centerValue_deleteCenter {tables : Tables} {other nodeId key key' : String} :
    centerValue (fetchTags fold (Write.apply fold tables (.deleteCenter other key')) nodeId) key =
      if fold other = fold nodeId ∧ key' = key then none
      else centerValue (fetchTags fold tables nodeId) key := by
  rw [centerValue_fetchTags, centerValue_fetchTags, Write.apply]
  dsimp only
  rw [List.find?_filter]
  by_cases h : fold other = fold nodeId ∧ key' = key
  · rw [if_pos h, Option.map_eq_none_iff, List.find?_eq_none]
    intro row _ hrow
    rw [decide_eq_true_eq, Bool.not_eq_true'] at hrow
    obtain ⟨hnode, hsource, hkey⟩ := holds_iff.mp hrow.2
    have hheld : row.holds fold other .center key' = true :=
      holds_iff.mpr ⟨hnode.trans h.1.symm, hsource, hkey.trans h.2.symm⟩
    rw [hheld] at hrow
    cases hrow.1
  · rw [if_neg h]
    congr 2
    funext row
    cases hrow : row.holds fold nodeId .center key with
    | false => simp
    | true =>
      have hheld : row.holds fold other .center key' = false := by
        rw [Bool.eq_false_iff]
        intro hheld
        obtain ⟨hnode, -, hkey⟩ := holds_iff.mp hrow
        obtain ⟨hnode', -, hkey'⟩ := holds_iff.mp hheld
        exact h ⟨hnode'.symm.trans hnode, hkey'.symm.trans hkey⟩
      simp [hheld]

theorem centerValue_apply {tables : Tables} {write : Write} {nodeId : String}
    (h : ¬ write.touches fold nodeId) (key : String) :
    centerValue (fetchTags fold (write.apply fold tables) nodeId) key =
      centerValue (fetchTags fold tables nodeId) key := by
  cases write with
  | upsertNode node => rfl
  | insertTag other tag =>
    rw [centerValue_insertTag, if_neg fun htouch => h ⟨htouch.1, htouch.2.1⟩]
  | deleteReported other =>
    rw [centerValue_fetchTags, centerValue_fetchTags, Write.apply]
    dsimp only
    rw [List.find?_filter]
    congr 2
    funext row
    cases hrow : row.holds fold nodeId .center key with
    | false => simp
    | true =>
      obtain ⟨-, hsource, -⟩ := holds_iff.mp hrow
      simp [hsource]
  | deleteCenter other key' =>
    rw [centerValue_deleteCenter, if_neg fun htouch => h htouch.1]

theorem centerValue_applyAll {writes : List Write} {tables : Tables} {nodeId : String}
    (h : ∀ write ∈ writes, ¬ write.touches fold nodeId) (key : String) :
    centerValue (fetchTags fold (applyAll fold writes tables) nodeId) key =
      centerValue (fetchTags fold tables nodeId) key := by
  induction writes generalizing tables with
  | nil => rfl
  | cons write writes ih =>
    refine (ih fun later hlater => h later (.tail _ hlater)).trans ?_
    exact centerValue_apply (h write List.mem_cons_self) key

/-! ## The keys that a list of writes leaves -/

def Sets (fold : String → String) (writes : List Write) (nodeId key : String) : Prop :=
  ∃ other tag, .insertTag other tag ∈ writes ∧ tag.source = .center ∧
    fold other = fold nodeId ∧ tag.key = key

def Removes (fold : String → String) (writes : List Write) (nodeId key : String) : Prop :=
  ∃ other, .deleteCenter other key ∈ writes ∧ fold other = fold nodeId

theorem mem_centerKeys_applyAll {writes : List Write} {tables : Tables} {nodeId key : String}
    (h : ¬ (Sets fold writes nodeId key ∧ Removes fold writes nodeId key)) :
    key ∈ centerKeys (fetchTags fold (applyAll fold writes tables) nodeId) ↔
      Sets fold writes nodeId key ∨
        (key ∈ centerKeys (fetchTags fold tables nodeId) ∧
          ¬ Removes fold writes nodeId key) := by
  induction writes generalizing tables with
  | nil => simp [applyAll, Sets, Removes]
  | cons write writes ih =>
    have hsets : Sets fold (write :: writes) nodeId key ↔
        Sets fold [write] nodeId key ∨ Sets fold writes nodeId key := by
      simp only [Sets, List.mem_cons, List.not_mem_nil, or_false, or_and_right, exists_or]
    have hremoves : Removes fold (write :: writes) nodeId key ↔
        Removes fold [write] nodeId key ∨ Removes fold writes nodeId key := by
      simp only [Removes, List.mem_cons, List.not_mem_nil, or_false, or_and_right, exists_or]
    rw [hsets, hremoves] at h ⊢
    have hlater : ¬ (Sets fold writes nodeId key ∧ Removes fold writes nodeId key) :=
      fun hboth => h ⟨.inr hboth.1, .inr hboth.2⟩
    have hstep : key ∈ centerKeys (fetchTags fold (write.apply fold tables) nodeId) ↔
        Sets fold [write] nodeId key ∨ (key ∈ centerKeys (fetchTags fold tables nodeId) ∧
          ¬ Removes fold [write] nodeId key) := by
      simp only [mem_centerKeys, Sets, Removes, List.mem_singleton]
      cases write with
      | insertTag other tag =>
        rw [centerValue_insertTag]
        by_cases hset : tag.source = .center ∧ fold other = fold nodeId ∧ tag.key = key
        · rw [if_pos hset]
          exact ⟨fun _ => .inl ⟨other, tag, rfl, hset⟩, fun _ => rfl⟩
        · rw [if_neg hset]
          constructor
          · exact fun hmem => .inr ⟨hmem, fun ⟨_, heq, _⟩ => by cases heq⟩
          · rintro (⟨_, _, heq, hset'⟩ | ⟨hmem, -⟩)
            · cases heq
              exact absurd hset' hset
            · exact hmem
      | deleteCenter other key' =>
        rw [centerValue_deleteCenter]
        by_cases hdelete : fold other = fold nodeId ∧ key' = key
        · rw [if_pos hdelete]
          refine ⟨fun hnone => absurd hnone Bool.false_ne_true, ?_⟩
          rintro (⟨_, _, heq, -⟩ | ⟨-, hnot⟩)
          · cases heq
          · exact absurd ⟨other, by rw [hdelete.2], hdelete.1⟩ hnot
        · rw [if_neg hdelete]
          constructor
          · refine fun hmem => .inr ⟨hmem, ?_⟩
            rintro ⟨_, heq, hnode⟩
            cases heq
            exact hdelete ⟨hnode, rfl⟩
          · rintro (⟨_, _, heq, -⟩ | ⟨hmem, -⟩)
            · cases heq
            · exact hmem
      | upsertNode node =>
        have huntouched : ¬ (Write.upsertNode node).touches fold nodeId := id
        rw [centerValue_apply huntouched]
        simp
      | deleteReported other =>
        have huntouched : ¬ (Write.deleteReported other).touches fold nodeId := id
        rw [centerValue_apply huntouched]
        simp
    refine (ih hlater).trans ?_
    rw [hstep]
    constructor
    · rintro (hset | ⟨hset | ⟨hmem, hnot⟩, hnot'⟩)
      · exact .inl (.inr hset)
      · exact .inl (.inl hset)
      · exact .inr ⟨hmem, fun hremove => hremove.elim hnot hnot'⟩
    · rintro ((hset | hset) | ⟨hmem, hnot⟩)
      · exact .inr ⟨.inl hset, fun hremove => h ⟨.inl hset, .inr hremove⟩⟩
      · exact .inl hset
      · exact .inr ⟨.inr ⟨hmem, fun hremove => hnot (.inl hremove)⟩,
          fun hremove => hnot (.inr hremove)⟩

/-! ## What a transaction touches -/

theorem NodePlan.mem_writes {plan : NodePlan} {write : Write} :
    write ∈ plan.writes ↔ ∃ change ∈ plan.changes, change.write plan.nodeId = write :=
  List.mem_map

theorem NodePlan.found_of_mem {plan : NodePlan} {change : Change} (h : change ∈ plan.changes) :
    plan.found = true := by
  cases hfound : plan.found with
  | true => rfl
  | false =>
    rw [NodePlan.changes, hfound] at h
    cases h

theorem registration_untouched {registration : Registration} {write : Write}
    (h : write ∈ registration.writes) (nodeId : String) : ¬ write.touches fold nodeId := by
  intro htouch
  simp only [Registration.writes, List.mem_cons, List.mem_map, List.mem_append] at h
  rcases h with rfl | rfl | ⟨tag, htag | htag, rfl⟩
  · exact htouch
  · exact htouch
  · have hsource := htouch.1
    rw [(classifyDeclaredTags_formed htag).1] at hsource
    cases hsource
  · have hsource := htouch.1
    rw [(systemTags_formed htag).1] at hsource
    cases hsource

/-- A transaction changes center tags of nodes that it locked. -/
theorem Commits.touches {loc : Loc} {writes : List Write} (h : Commits loc writes) {write : Write}
    (hwrite : write ∈ writes) {nodeId : String} (htouch : write.touches fold nodeId) :
    ∃ other ∈ loc.locked, fold other = fold nodeId := by
  cases h with
  | @set other _ _ _ _ _ _ hlocked _ =>
    rw [List.mem_singleton.mp hwrite] at htouch
    exact ⟨other, by simp [hlocked], htouch.2⟩
  | @delete other _ _ _ _ _ hlocked _ =>
    rw [List.mem_singleton.mp hwrite] at htouch
    exact ⟨other, by simp [hlocked], htouch⟩
  | bulk _ _ hmade _ _ _ =>
    obtain ⟨plan, hplan, hwrite⟩ := List.mem_flatMap.mp hwrite
    obtain ⟨change, hchange, rfl⟩ := NodePlan.mem_writes.mp hwrite
    obtain ⟨rows, hread, -⟩ := hmade plan hplan (NodePlan.found_of_mem hchange)
    refine ⟨plan.nodeId, hread.locked, ?_⟩
    cases change with
    | set key value => exact htouch.2
    | remove key => exact htouch
  | register _ _ => exact absurd htouch (registration_untouched hwrite nodeId)

theorem backfill_untouched {tables : Tables} {node : Node} {write : Write}
    (h : write ∈ backfillWrites fold tables node) (nodeId : String) :
    ¬ write.touches fold nodeId := by
  intro htouch
  rcases List.mem_append.mp h with h | h
  · split at h
    · cases h
    · obtain ⟨tag, htag, rfl⟩ := List.mem_map.mp h
      have hsource := htouch.1
      rw [(classifyDeclaredTags_formed htag).1] at hsource
      cases hsource
  · split at h
    · cases h
    · split at h
      · cases h
      · obtain ⟨value, -, rfl⟩ := Option.map_eq_some_iff.mp (Option.mem_toList.mp h)
        cases htouch.1

theorem Center.commit_untouched {center : Center} {writes : List Write} {nodeId : String}
    (h : ∀ write ∈ writes, ¬ write.touches fold nodeId) (key : String) :
    centerValue (fetchTags fold (center.commit fold writes).tables nodeId) key =
      centerValue (fetchTags fold center.tables nodeId) key := by
  rcases center.commit_tables writes with heq | ⟨-, heq⟩
  · rw [heq]
  · rw [heq, centerValue_applyAll h]

/-! ## Locks and reads -/

/-- The center's values of a node are committed as they were read. -/
def Fresh (fold : String → String) (tables : Tables) (read : String × List StoredTag) : Prop :=
  ∀ key, centerValue (fetchTags fold tables read.1) key = centerValue read.2 key

/-- A thread holds the locks it took, and its reads are of one snapshot.  The first of them
is fresh, and `all` says that the others are. -/
structure Inv (fold : String → String) (all : Prop) (center : Center) (t : Nat) (loc : Loc) :
    Prop where
  locked : ∀ nodeId ∈ loc.locked, center.holder (fold nodeId) = some t
  unread : loc.reads = [] → center.snapshots t = none
  reads : ∀ read ∈ loc.reads, read.1 ∈ loc.locked ∧
    ∃ snapshot, center.snapshots t = some snapshot ∧ read.2 = fetchTags fold snapshot read.1
  fresh : ∀ i read, loc.reads[i]? = some read → i = 0 ∨ all → Fresh fold center.tables read

variable {all : Prop} {center : Center} {t : Nat} {loc : Loc}

theorem Inv.start (h : center.snapshots t = none) (request : Option Request) :
    Inv fold all center t (.fresh request) where
  locked _ hmem := by cases hmem
  unread _ := h
  reads _ hmem := by cases hmem
  fresh i _ hread := by simp [Loc.fresh] at hread

/-- What other threads do that keeps the locks of this one. -/
theorem Inv.keep {center' : Center} (h : Inv fold all center t loc)
    (hholder : ∀ nodeId, center.holder (fold nodeId) = some t →
      center'.holder (fold nodeId) = some t)
    (hsnapshot : center'.snapshots t = center.snapshots t)
    (hvalues : ∀ nodeId ∈ loc.locked, ∀ key,
      centerValue (fetchTags fold center'.tables nodeId) key =
        centerValue (fetchTags fold center.tables nodeId) key) : Inv fold all center' t loc where
  locked nodeId hmem := hholder nodeId (h.locked nodeId hmem)
  unread hnone := hsnapshot.trans (h.unread hnone)
  reads read hmem := by
    rw [hsnapshot]
    exact h.reads read hmem
  fresh i read hread hall key := by
    rw [hvalues read.1 (h.reads read (List.mem_of_getElem? hread)).1]
    exact h.fresh i read hread hall key

theorem Center.free_holder {nodeId other : String} (h : center.free fold t nodeId = true)
    {t' : Nat} (hheld : center.holder (fold other) = some t') (hne : t' ≠ t) :
    fold other ≠ fold nodeId := by
  intro heq
  rw [Center.free, ← heq, hheld] at h
  exact hne (of_decide_eq_true h)

/-- A lock of one thread leaves those of the others. -/
theorem Inv.lock {t' : Nat} {nodeId : String} (h : Inv fold all center t loc)
    (hfree : center.free fold t' nodeId = true) (hne : t ≠ t') :
    Inv fold all (center.lock fold t' nodeId) t loc := by
  refine h.keep (fun other hheld => ?_) rfl fun _ _ _ => rfl
  simp only [Center.lock]
  rw [Function.update_of_ne (Center.free_holder hfree hheld hne)]
  exact hheld

theorem Inv.locks {nodeId : String} (h : Inv fold all center t loc) :
    Inv fold all (center.lock fold t nodeId) t { loc with locked := nodeId :: loc.locked } where
  locked other hmem := by
    rcases List.mem_cons.mp hmem with rfl | hmem
    · simp [Center.lock]
    · by_cases heq : fold other = fold nodeId
      · simp [Center.lock, heq]
      · simp [Center.lock, heq, h.locked other hmem]
  unread hnone := h.unread hnone
  reads read hmem := (h.reads read hmem).imp_left fun hlocked => .tail _ hlocked
  fresh i read hread hall := h.fresh i read hread hall

theorem Inv.finish {t' : Nat} (h : Inv fold all center t loc) (hne : t ≠ t') :
    Inv fold all (center.finish t') t loc := by
  refine h.keep (fun nodeId hheld => ?_) ?_ fun _ _ _ => rfl
  · simp [Center.finish, hheld, hne]
  · simp [Center.finish, hne]

theorem Inv.reading (h : Inv fold all center t loc) {nodeId : String}
    (hlocked : nodeId ∈ loc.locked)
    (hfresh : all → Fresh fold center.tables (nodeId, fetchTags fold (center.view t) nodeId)) :
    Inv fold all
      { center with snapshots := Function.update center.snapshots t (some (center.view t)) } t
      { loc with reads := loc.reads ++ [(nodeId, fetchTags fold (center.view t) nodeId)] } where
  locked := h.locked
  unread hnone := absurd hnone (by simp)
  reads read hmem := by
    rcases List.mem_append.mp hmem with hmem | hmem
    · obtain ⟨hin, snapshot, hsnapshot, heq⟩ := h.reads read hmem
      have hview : center.view t = snapshot := by rw [Center.view, hsnapshot]; rfl
      exact ⟨hin, snapshot, by simp [hview], heq⟩
    · rw [List.mem_singleton.mp hmem]
      exact ⟨hlocked, center.view t, by simp, rfl⟩
  fresh i read hread hall := by
    rcases Nat.lt_or_ge i loc.reads.length with hlt | hge
    · rw [List.getElem?_append_left hlt] at hread
      exact h.fresh i read hread hall
    · rw [List.getElem?_append_right hge] at hread
      obtain ⟨-, rfl⟩ : i - loc.reads.length = 0 ∧
          (nodeId, fetchTags fold (center.view t) nodeId) = read := by
        simpa [List.getElem?_singleton] using hread
      rcases hall with hzero | hall
      · -- The first read takes the snapshot.
        have hnone : loc.reads = [] := List.eq_nil_of_length_eq_zero (by omega)
        have hview : center.view t = center.tables := by
          rw [Center.view, h.unread hnone]
          rfl
        intro key
        rw [hview]
      · exact hfresh hall

/-- A read finds the center's values of its node as they are committed. -/
def FreshReads (fold : String → String) (sys : System) (m : Move Nat Unit Event) : Prop :=
  ∀ t, m = .act t () → ∀ nodeId, sys.about t (.fetchTags nodeId) →
    Fresh fold sys.shared.tables (nodeId, fetchTags fold (sys.shared.view t) nodeId)

/-- What a commit does to the invariant of another thread. -/
theorem Inv.commit {t' : Nat} {loc' : Loc} {writes : List Write} (h : Inv fold all center t loc)
    (h' : Inv fold all center t' loc') (hcommits : Commits loc' writes) (hne : t ≠ t') :
    Inv fold all ((center.commit fold writes).finish t') t loc := by
  have hkeeps : (center.commit fold writes).holder = center.holder ∧
      (center.commit fold writes).snapshots = center.snapshots := by
    rw [Center.commit]
    split <;> exact ⟨rfl, rfl⟩
  refine Inv.finish (h.keep ?_ (by rw [hkeeps.2]) ?_) hne
  · intro nodeId hheld
    rw [hkeeps.1]
    exact hheld
  · intro nodeId hmem key
    refine Center.commit_untouched (fun write hwrite htouch => ?_) key
    -- The other thread would hold the lock of this node too.
    obtain ⟨other, hother, hsame⟩ := hcommits.touches hwrite htouch
    have hheld := h'.locked other hother
    rw [hsame, h.locked nodeId hmem] at hheld
    exact hne (Option.some.inj hheld)

variable {ok : System → Move Nat Unit Event → Prop} {sys : System}

theorem inv_of_reaches (hok : ∀ sys m, ok sys m → all → FreshReads fold sys m)
    (h : (Tags.center fold).Reaches ok initial sys) (t : Nat) :
    Inv fold all sys.shared t (sys.loc t) := by
  refine h.invariant (P := fun shared locs => ∀ t, Inv fold all shared t (locs t))
    (center_obeys fold) (initial_sound fold) (fun t => Inv.start rfl none) ?_ ?_ t
  · intro sys t' op c reply shared _ hinv hmove habout hpre _ hexec t
    have hself := hinv t'
    by_cases hne : t = t'
    · subst hne
      rw [Function.update_self]
      cases op with
      | lockNode nodeId =>
        simp only [Tags.center, exec] at hexec
        split at hexec
        · split at hexec <;> cases hexec
          · exact hself.locks
          · exact hself
        · cases hexec
      | lockUpsert nodeId =>
        simp only [Tags.center, exec] at hexec
        split at hexec
        · cases hexec
          exact hself.locks
        · cases hexec
      | fetchTags nodeId =>
        cases hexec
        exact hself.reading hpre fun hall => hok sys _ hmove hall t rfl nodeId habout
      | commit writes =>
        cases hexec
        refine Inv.start ?_ none
        simp [Center.finish]
      | rollback =>
        cases hexec
        refine Inv.start ?_ none
        simp [Center.finish]
    · rw [Function.update_of_ne hne]
      have hother := hinv t
      cases op with
      | lockNode nodeId =>
        simp only [Tags.center, exec] at hexec
        split at hexec
        · next hfree =>
          split at hexec <;> cases hexec
          · exact hother.lock hfree hne
          · exact hother
        · cases hexec
      | lockUpsert nodeId =>
        simp only [Tags.center, exec] at hexec
        split at hexec
        · next hfree =>
          cases hexec
          exact hother.lock hfree hne
        · cases hexec
      | fetchTags nodeId =>
        cases hexec
        exact hother.keep (fun _ => id) (by simp [hne]) fun _ _ _ => rfl
      | commit writes =>
        cases hexec
        exact hother.commit hself hpre hne
      | rollback =>
        cases hexec
        exact hother.finish hne
  · intro sys e sys' _ hinv _ hfire t
    cases e with
    | start t' request =>
      simp only [Tags.center, fire] at hfire
      split at hfire
      · next hidle =>
        cases hfire
        rw [Machine.loc_update]
        by_cases hne : t = t'
        · subst hne
          rw [Function.update_self]
          rw [Bool.and_eq_true, Option.isNone_iff_eq_none] at hidle
          exact Inv.start hidle.2 (some request)
        · rw [Function.update_of_ne hne]
          exact hinv t
      · cases hfire
    | abort t' =>
      cases hfire
      rw [Machine.loc_update]
      by_cases hne : t = t'
      · subst hne
        rw [Function.update_self]
        refine Inv.start ?_ none
        simp [Center.finish]
      · rw [Function.update_of_ne hne]
        exact (hinv t).finish hne
    | backfill index =>
      simp only [Tags.center, fire, Option.map_eq_some_iff] at hfire
      obtain ⟨node, -, rfl⟩ := hfire
      refine (hinv t).keep ?_ ?_ fun nodeId _ key => ?_
      · intro nodeId hheld
        rw [Center.commit]
        split <;> exact hheld
      · rw [Center.commit]
        split <;> rfl
      · exact Center.commit_untouched (fun write hwrite => backfill_untouched hwrite nodeId) key

/-! ## A conditional change -/

theorem commits_of_about (h : (Tags.center fold).Reaches ok initial sys) {writes : List Write}
    (habout : sys.about t (.commit writes)) : Commits (sys.loc t) writes :=
  (Machine.sound_of_reaches (center_obeys fold) (initial_sound fold) h).pre habout

/-- A conditional change is about to commit only where the committed value is the expected
one, whatever else runs. -/
theorem compared_of_reaches (h : (Tags.center fold).Reaches ok initial sys) {writes : List Write}
    (habout : sys.about t (.commit writes)) {nodeId key : String} {body : PutTagBody}
    (hrequest : (sys.loc t).request = some (.setCenterTag nodeId key body)) {expected : String}
    (hexpected : body.ifValue = some expected) :
    centerValue (fetchTags fold sys.shared.tables nodeId) key = some expected := by
  have hinv : Inv fold False sys.shared t (sys.loc t) :=
    inv_of_reaches (fun _ _ _ hfalse => hfalse.elim) h t
  cases commits_of_about h habout with
  | @set other key' body' rows hset _ hreads _ hcheck =>
    rw [hrequest] at hset
    cases hset
    have hfirst : (sys.loc t).reads[0]? = some (nodeId, rows) := by rw [hreads]; rfl
    rw [hinv.fresh 0 _ hfirst (.inl rfl) key]
    exact (checkSet_ok hcheck).1 expected hexpected
  | delete hother _ _ _ =>
    rw [hrequest] at hother
    cases hother
  | bulk hother _ _ _ _ _ =>
    rw [hrequest] at hother
    cases hother
  | register hother _ =>
    rw [hrequest] at hother
    cases hother

/-! ## The limit -/

theorem fetchTags_congr {tables : Tables} {nodeId other : String}
    (h : fold other = fold nodeId) : fetchTags fold tables other = fetchTags fold tables nodeId := by
  simp only [fetchTags, sameNode, h]

section
variable {writes : List Write}

/-- Every plan for a node has the changes that its first rows give. -/
theorem bulk_limit (hinv : Inv fold True center t loc) {add : SortedMap String String}
    {remove : List String} (hdisjoint : ∀ key ∈ remove, add.contains key = false)
    {plans : List NodePlan} (hmade : ∀ plan ∈ plans, Made loc add remove plan) (nodeId : String)
    (hle : (centerKeys (fetchTags fold center.tables nodeId)).card ≤ maxCenterTags) :
    (centerKeys (fetchTags fold (applyAll fold (plans.flatMap (·.writes)) center.tables)
      nodeId)).card ≤ maxCenterTags := by
  by_cases hplanned : ∃ plan ∈ plans, plan.found = true ∧ fold plan.nodeId = fold nodeId
  · obtain ⟨first, hfirst, hfound, hnode⟩ := hplanned
    obtain ⟨rows, hread, hplan⟩ := hmade first hfirst hfound
    obtain ⟨-, snapshot, hsnapshot, hrows⟩ := hinv.reads _ hread.read
    have hchanges : ∀ plan ∈ plans, plan.found = true → fold plan.nodeId = fold nodeId →
        plan.changes = (planNode rows first.nodeId true add remove).changes := by
      intro plan hmem hfound' hnode'
      obtain ⟨rows', hread', hplan'⟩ := hmade plan hmem hfound'
      obtain ⟨-, snapshot', hsnapshot', hrows'⟩ := hinv.reads _ hread'.read
      rw [hsnapshot] at hsnapshot'
      cases hsnapshot'
      have hsame : rows' = rows := by
        rw [show rows' = fetchTags fold snapshot plan.nodeId from hrows',
          show rows = fetchTags fold snapshot first.nodeId from hrows]
        exact fetchTags_congr (hnode'.trans hnode.symm)
      rw [hplan', hsame, planNode_changes, planNode_changes]
    have hfirstChanges : first.changes = (planNode rows first.nodeId true add remove).changes :=
      hchanges first hfirst hfound hnode
    have hsets : ∀ key, Sets fold (plans.flatMap (·.writes)) nodeId key ↔
        ∃ value, .set key value ∈ (planNode rows first.nodeId true add remove).changes := by
      intro key
      constructor
      · rintro ⟨other, tag, hwrite, -, hsame, hkey⟩
        obtain ⟨plan, hmem, hwrite⟩ := List.mem_flatMap.mp hwrite
        obtain ⟨change, hchange, heq⟩ := NodePlan.mem_writes.mp hwrite
        cases change with
        | set key' value =>
          cases heq
          rw [← hchanges plan hmem (NodePlan.found_of_mem hchange) hsame, ← hkey]
          exact ⟨value, hchange⟩
        | remove key' => cases heq
      · rintro ⟨value, hchange⟩
        rw [← hfirstChanges] at hchange
        exact ⟨first.nodeId, centerTag key value, List.mem_flatMap.mpr ⟨first, hfirst,
          NodePlan.mem_writes.mpr ⟨_, hchange, rfl⟩⟩, rfl, hnode, rfl⟩
    have hremoves : ∀ key, Removes fold (plans.flatMap (·.writes)) nodeId key ↔
        .remove key ∈ (planNode rows first.nodeId true add remove).changes := by
      intro key
      constructor
      · rintro ⟨other, hwrite, hsame⟩
        obtain ⟨plan, hmem, hwrite⟩ := List.mem_flatMap.mp hwrite
        obtain ⟨change, hchange, heq⟩ := NodePlan.mem_writes.mp hwrite
        cases change with
        | set key' value => cases heq
        | remove key' =>
          cases heq
          rw [← hchanges plan hmem (NodePlan.found_of_mem hchange) hsame]
          exact hchange
      · intro hchange
        rw [← hfirstChanges] at hchange
        exact ⟨first.nodeId, List.mem_flatMap.mpr ⟨first, hfirst,
          NodePlan.mem_writes.mpr ⟨_, hchange, rfl⟩⟩, hnode⟩
    have hboth : ∀ key, ¬ (Sets fold (plans.flatMap (·.writes)) nodeId key ∧
        Removes fold (plans.flatMap (·.writes)) nodeId key) := by
      rintro key ⟨hset, hremove⟩
      obtain ⟨value, hset⟩ := (hsets key).mp hset
      rcases planNode_requested hdisjoint ((hremoves key).mp hremove) with
        ⟨key', hkey', heq⟩ | ⟨_, _, heq⟩
      · cases heq
        rcases planNode_requested hdisjoint hset with ⟨_, _, heq⟩ | ⟨entry, hentry, heq⟩
        · cases heq
        · cases heq
          have hcontains : add.contains entry.1 = true :=
            SortedMap.mem_keys.mp (List.mem_map_of_mem hentry)
          rw [hdisjoint _ hkey'] at hcontains
          cases hcontains
      · cases heq
    -- The rows that the plan was made from are as they are committed.
    obtain ⟨i, hi⟩ := List.mem_iff_getElem?.mp hread.read
    have hkeys : centerKeys (fetchTags fold center.tables nodeId) = centerKeys rows := by
      rw [← fetchTags_congr hnode]
      exact centerKeys_congr (hinv.fresh i _ hi (.inr trivial))
    obtain ⟨keys, hcard, hmem⟩ :=
      planNode_limit hdisjoint first.nodeId (hkeys ▸ hle : (centerKeys rows).card ≤ _)
    have hafter : centerKeys (fetchTags fold
        (applyAll fold (plans.flatMap (·.writes)) center.tables) nodeId) = keys := by
      ext key
      rw [mem_centerKeys_applyAll (hboth key), hsets, hremoves, hkeys, hmem]
      rfl
    rw [hafter]
    exact hcard
  · rw [centerKeys_congr (centerValue_applyAll fun write hwrite htouch => hplanned ?_)]
    · exact hle
    · obtain ⟨plan, hmem, hwrite⟩ := List.mem_flatMap.mp hwrite
      obtain ⟨change, hchange, rfl⟩ := NodePlan.mem_writes.mp hwrite
      refine ⟨plan, hmem, NodePlan.found_of_mem hchange, ?_⟩
      cases change with
      | set key value => exact htouch.2
      | remove key => exact htouch

theorem commit_limit (hinv : Inv fold True center t loc) (h : Commits loc writes)
    (nodeId : String)
    (hle : (centerKeys (fetchTags fold center.tables nodeId)).card ≤ maxCenterTags) :
    (centerKeys (fetchTags fold (applyAll fold writes center.tables) nodeId)).card ≤
      maxCenterTags := by
  cases h with
  | @set other key body rows _ _ hreads _ hcheck =>
    have hfirst : loc.reads[0]? = some (other, rows) := by rw [hreads]; rfl
    have hfresh : ∀ key, centerValue (fetchTags fold center.tables other) key =
        centerValue rows key := hinv.fresh 0 _ hfirst (.inl rfl)
    by_cases hsame : fold other = fold nodeId
    · rw [fetchTags_congr hsame] at hfresh
      have hafter : centerKeys (fetchTags fold
          (applyAll fold [(Change.set key body.value).write other] center.tables) nodeId) ⊆
            insert key (centerKeys (fetchTags fold center.tables nodeId)) := by
        intro key' hkey'
        rw [mem_centerKeys_applyAll] at hkey'
        · rcases hkey' with ⟨_, _, hwrite, -, -, hkey⟩ | ⟨hmem, -⟩
          · cases List.mem_singleton.mp hwrite
            exact Finset.mem_insert.mpr (.inl hkey.symm)
          · exact Finset.mem_insert_of_mem hmem
        · rintro ⟨-, _, hwrite, -⟩
          cases List.mem_singleton.mp hwrite
      refine (Finset.card_le_card hafter).trans ?_
      cases hvalue : centerValue rows key with
      | some old =>
        have hmem : key ∈ centerKeys (fetchTags fold center.tables nodeId) := by
          rw [mem_centerKeys, hfresh key, hvalue]
          rfl
        rw [Finset.insert_eq_of_mem hmem]
        exact hle
      | none =>
        have hcard := card_centerKeys_le rows
        rw [← centerKeys_congr hfresh] at hcard
        refine (Finset.card_insert_le _ _).trans ?_
        exact Nat.lt_of_le_of_lt hcard ((checkSet_ok hcheck).2 hvalue)
    · rw [centerKeys_congr (centerValue_applyAll fun write hwrite htouch => ?_)]
      · exact hle
      · rw [List.mem_singleton.mp hwrite] at htouch
        exact hsame htouch.2
  | @delete other key _ _ _ _ _ _ =>
    refine (Finset.card_le_card fun key' hkey' => ?_).trans hle
    rw [mem_centerKeys_applyAll] at hkey'
    · rcases hkey' with ⟨_, _, hwrite, -⟩ | ⟨hmem, -⟩
      · cases List.mem_singleton.mp hwrite
      · exact hmem
    · rintro ⟨⟨_, _, hwrite, -⟩, -⟩
      cases List.mem_singleton.mp hwrite
  | bulk _ htargets hmade _ _ _ =>
    exact bulk_limit hinv (targets_ok htargets).2 hmade nodeId hle
  | register _ _ =>
    rw [centerKeys_congr (centerValue_applyAll fun write hwrite htouch => ?_)]
    · exact hle
    · exact registration_untouched hwrite nodeId htouch

end

/-! ## Every run -/

/-- No node has more center tags than allowed. -/
def Limited (fold : String → String) (sys : System) : Prop :=
  ∀ nodeId, centerCount (fetchTags fold sys.shared.tables nodeId) ≤ maxCenterTags

/-- A conditional change that is about to commit finds the expected value committed. -/
def Compares (fold : String → String) (sys : System) : Prop :=
  ∀ t writes nodeId key body expected, sys.about t (.commit writes) →
    (sys.loc t).request = some (.setCenterTag nodeId key body) → body.ifValue = some expected →
      centerValue (fetchTags fold sys.shared.tables nodeId) key = some expected

theorem limited_of_reaches (h : (Tags.center fold).Reaches (FreshReads fold) initial sys) :
    Limited fold sys := by
  have hkeys : ∀ nodeId, (centerKeys (fetchTags fold sys.shared.tables nodeId)).card ≤
      maxCenterTags := by
    refine tables_of_reaches (P := fun tables => ∀ nodeId,
      (centerKeys (fetchTags fold tables nodeId)).card ≤ maxCenterTags) ?_ ?_ ?_ h
    · exact fun nodeId => Nat.zero_le _
    · intro sys t writes hreach hle _ _ hcommits _ nodeId
      have hinv : Inv fold True sys.shared t (sys.loc t) :=
        inv_of_reaches (fun _ _ hok _ => hok) hreach t
      exact commit_limit hinv hcommits nodeId (hle nodeId)
    · intro sys node _ hle _ _ nodeId
      rw [centerKeys_congr (centerValue_applyAll fun write hwrite =>
        backfill_untouched hwrite nodeId)]
      exact hle nodeId
  intro nodeId
  rw [centerCount_eq ((wellFormed_of_reaches h).distinct nodeId)]
  exact hkeys nodeId

/-- Conditional changes compare in every run. -/
theorem conditional_set_compares (h : (Tags.center fold).Reaches ok initial sys) :
    Compares fold sys :=
  fun _ _ _ _ _ _ habout hrequest hexpected =>
    compared_of_reaches h habout hrequest hexpected

/-- In every run whose reads are fresh, no node has too many center tags, and a conditional
change commits only on the expected value. -/
theorem center_tags_limited (h : (Tags.center fold).Reaches (FreshReads fold) initial sys) :
    Limited fold sys ∧ Compares fold sys :=
  ⟨limited_of_reaches h, conditional_set_compares h⟩

end

/-! ## Two runs -/

def bareNode (nodeId : String) : Registration := ⟨nodeId, "", .empty, "", ""⟩

def act (t : Nat) (steps : Nat) : List (Move Nat Unit Event) := List.replicate steps (.act t ())

/-- The snapshot of the thread is not behind. -/
def current (sys : System) : Move Nat Unit Event → Bool
  | .act t _ => (sys.shared.view t).tags = sys.shared.tables.tags
  | .event _ => true

theorem freshReads_of_current {fold : String → String} (sys : System) (m : Move Nat Unit Event)
    (h : current sys m = true) : FreshReads fold sys m := by
  rintro t rfl nodeId - key
  have htags : (sys.shared.view t).tags = sys.shared.tables.tags := of_decide_eq_true h
  simp only [fetchTags, htags]

/-- A tag that is set and then changed on a condition. -/
def conditionalMoves : List (Move Nat Unit Event) :=
  .event (.start 0 (.register (bareNode "node-1"))) :: act 0 3 ++
    .event (.start 0 (.setCenterTag "node-1" "team" ⟨"a", none, none⟩)) :: act 0 3 ++
    .event (.start 0 (.setCenterTag "node-1" "team" ⟨"b", some "a", none⟩)) :: act 0 3

theorem center_tags_limited_conditional : ∃ sys : System,
    centerValue (fetchTags id sys.shared.tables "node-1") "team" = some "b" ∧
      Limited id sys ∧ Compares id sys := by
  have hrun : ((center id).run current initial conditionalMoves).any (fun sys =>
      centerValue (fetchTags id sys.shared.tables "node-1") "team" = some "b") = true := by
    decide +kernel
  obtain ⟨sys, hreach, hvalue⟩ := Machine.exists_reaches_of_run freshReads_of_current hrun
  exact ⟨sys, of_decide_eq_true hvalue, center_tags_limited hreach⟩

/-- As many keys as a node may have, but one. -/
def manyKeys : List String :=
  ["a", "b", "c", "d", "e", "f", "g", "h", "i", "j", "k", "l", "m", "n", "o", "p", "q", "r", "s",
    "t", "u", "v", "w", "x", "y", "z", "aa", "ab", "ac", "ad", "ae"]

def addTo (nodeIds keys : List String) : BulkBody :=
  ⟨nodeIds, .ofList (keys.map fun key => (key, "1")), [], false, none⟩

/-- Once a bulk change has read its first node, the second one gets its last tag. -/
def staleMoves : List (Move Nat Unit Event) :=
  .event (.start 0 (.register (bareNode "node-1"))) :: act 0 3 ++
    .event (.start 0 (.register (bareNode "node-2"))) :: act 0 3 ++
    .event (.start 0 (.bulk (addTo ["node-2"] manyKeys))) :: act 0 3 ++
    .event (.start 0 (.bulk (addTo ["node-1", "node-2"] ["last"]))) :: act 0 2 ++
    .event (.start 1 (.setCenterTag "node-2" "other" ⟨"1", none, none⟩)) :: act 1 3 ++ act 0 3

theorem limit_exceeded : ∃ sys : System,
    (center id).Reaches (fun _ _ => True) initial sys ∧
      ¬ (Limited id sys ∧ Compares id sys) := by
  have hrun : ((center id).run (fun _ _ => true) initial staleMoves).any (fun sys =>
      maxCenterTags < centerCount (fetchTags id sys.shared.tables "node-2")) = true := by
    decide +kernel
  obtain ⟨sys, hreach, hcount⟩ := Machine.exists_reaches_of_run (fun _ _ _ => trivial) hrun
  refine ⟨sys, hreach, fun hkept => ?_⟩
  exact Nat.not_lt.mpr (hkept.1 "node-2") (of_decide_eq_true hcount)

end Novbot.Tags
