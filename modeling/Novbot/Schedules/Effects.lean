import Novbot.Schedules.Database

/-!
# What a transaction does to each row

The writes of a transaction come in groups, one for each config that it locks.  A group
changes the rows of its node only (`Within`), and the value that the transaction locked is
still the committed one, so a group acts on each config as if it were alone
(`configAfter_groups`, `stateAfter_groups`).

Of the entries of a config, the ones with the origin of the schedule are its *own*.  A
group leaves the others alone.
-/

namespace Novbot.Schedules

/-- The write is about the node, for the schedule. -/
inductive Write.Within (id nodeId : String) : Write → Prop where
  | insertConfig : Within id nodeId (.insertConfig nodeId)
  | setSchedules {entries : List Json} : Within id nodeId (.setSchedules nodeId entries)
  | upsertNode {state : NodeState} : Within id nodeId (.upsertNode id nodeId state)
  | deleteNode : Within id nodeId (.deleteNode id nodeId)

variable {id id' nodeId other : String} {writes : List Write}

theorem Write.Within.config {write : Write} (h : write.Within id nodeId) (hother : nodeId ≠ other)
    (config : Option Config) : write.config other config = config := by
  cases h with
  | insertConfig => exact if_neg hother
  | setSchedules => exact if_neg hother
  | upsertNode => rfl
  | deleteNode => rfl

theorem Write.Within.schedule {write : Write} (h : write.Within id nodeId) (id' : String)
    (schedule : Option Schedule) : write.schedule id' schedule = schedule := by
  cases h <;> rfl

theorem Write.Within.state {write : Write} (h : write.Within id nodeId)
    (hother : ¬ (id = id' ∧ nodeId = other)) (state : Option NodeState) :
    write.state id' other state = state := by
  cases h with
  | insertConfig => rfl
  | setSchedules => rfl
  | upsertNode => exact if_neg hother
  | deleteNode => exact if_neg hother

theorem configAfter_of_within (h : ∀ write ∈ writes, write.Within id nodeId)
    (hother : nodeId ≠ other) (config : Option Config) :
    configAfter writes other config = config := by
  induction writes generalizing config with
  | nil => rfl
  | cons write writes ih =>
    have hfirst := (h write List.mem_cons_self).config hother config
    exact (congrArg _ hfirst).trans (ih (fun write hwrite => h write (.tail _ hwrite)) config)

theorem scheduleAfter_of_within (h : ∀ write ∈ writes, ∃ nodeId, write.Within id nodeId)
    (schedule : Option Schedule) : scheduleAfter writes id' schedule = schedule := by
  induction writes generalizing schedule with
  | nil => rfl
  | cons write writes ih =>
    obtain ⟨nodeId, hwithin⟩ := h write List.mem_cons_self
    exact (congrArg _ (hwithin.schedule id' schedule)).trans
      (ih (fun write hwrite => h write (.tail _ hwrite)) schedule)

theorem stateAfter_of_within (h : ∀ write ∈ writes, ∃ nodeId, write.Within id nodeId ∧
      ¬ (id = id' ∧ nodeId = other)) (state : Option NodeState) :
    stateAfter writes id' other state = state := by
  induction writes generalizing state with
  | nil => rfl
  | cons write writes ih =>
    obtain ⟨nodeId, hwithin, hother⟩ := h write List.mem_cons_self
    exact (congrArg _ (hwithin.state hother state)).trans
      (ih (fun write hwrite => h write (.tail _ hwrite)) state)

theorem configAfter_append (first second : List Write) (nodeId : String) (config : Option Config) :
    configAfter (first ++ second) nodeId config =
      configAfter second nodeId (configAfter first nodeId config) := List.foldl_append

theorem scheduleAfter_append (first second : List Write) (id : String)
    (schedule : Option Schedule) : scheduleAfter (first ++ second) id schedule =
      scheduleAfter second id (scheduleAfter first id schedule) := List.foldl_append

theorem stateAfter_append (first second : List Write) (id nodeId : String)
    (state : Option NodeState) : stateAfter (first ++ second) id nodeId state =
      stateAfter second id nodeId (stateAfter first id nodeId state) := List.foldl_append

/-! ## Groups -/

section

variable {group : String × Option Config → List Write} {locked : List (String × Option Config)}
  (hgroup : ∀ l, ∀ write ∈ group l, write.Within id l.1)

include hgroup

theorem within_groups : ∀ write ∈ locked.flatMap group, ∃ nodeId, write.Within id nodeId := by
  intro write hwrite
  obtain ⟨l, -, hwrite⟩ := List.mem_flatMap.mp hwrite
  exact ⟨l.1, hgroup l write hwrite⟩

theorem configAfter_groups_of_not_mem (h : nodeId ∉ locked.map (·.1)) (config : Option Config) :
    configAfter (locked.flatMap group) nodeId config = config := by
  induction locked generalizing config with
  | nil => rfl
  | cons l locked ih =>
    rw [List.map_cons, List.mem_cons, not_or] at h
    rw [List.flatMap_cons, configAfter_append, configAfter_of_within (hgroup l) (Ne.symm h.1)]
    exact ih h.2 config

theorem stateAfter_groups_of_not_mem (h : nodeId ∉ locked.map (·.1)) (state : Option NodeState) :
    stateAfter (locked.flatMap group) id nodeId state = state := by
  have hwithin : ∀ write ∈ locked.flatMap group, ∃ node, write.Within id node ∧
      ¬ (id = id ∧ node = nodeId) := by
    intro write hwrite
    obtain ⟨l, hl, hwrite⟩ := List.mem_flatMap.mp hwrite
    refine ⟨l.1, hgroup l write hwrite, ?_⟩
    rintro ⟨-, rfl⟩
    exact h (List.mem_map.mpr ⟨l, hl, rfl⟩)
  exact stateAfter_of_within hwithin state

theorem stateAfter_groups_of_ne (h : id ≠ id') (state : Option NodeState) :
    stateAfter (locked.flatMap group) id' nodeId state = state := by
  have hwithin : ∀ write ∈ locked.flatMap group, ∃ node, write.Within id node ∧
      ¬ (id = id' ∧ node = nodeId) := by
    intro write hwrite
    obtain ⟨l, hl, hwrite⟩ := List.mem_flatMap.mp hwrite
    exact ⟨l.1, hgroup l write hwrite, fun heq => h heq.1⟩
  exact stateAfter_of_within hwithin state

/-- The group of a config acts on it as if it were alone. -/
theorem configAfter_groups {configs : String → Option Config}
    (hdistinct : (locked.map (·.1)).Nodup) (hlocked : ∀ l ∈ locked, configs l.1 = l.2)
    (h : nodeId ∈ locked.map (·.1)) :
    configAfter (locked.flatMap group) nodeId (configs nodeId) =
      configAfter (group (nodeId, configs nodeId)) nodeId (configs nodeId) := by
  induction locked with
  | nil => cases h
  | cons l locked ih =>
    obtain ⟨hfresh, hdistinct⟩ := List.nodup_cons.mp hdistinct
    rw [List.flatMap_cons, configAfter_append]
    rcases List.mem_cons.mp h with rfl | h
    · rw [configAfter_groups_of_not_mem hgroup hfresh, hlocked l List.mem_cons_self]
    · have hne : l.1 ≠ nodeId := by
        rintro rfl
        exact hfresh h
      rw [configAfter_of_within (hgroup l) hne]
      exact ih hdistinct (fun l hl => hlocked l (.tail _ hl)) h

theorem stateAfter_groups {configs : String → Option Config} {state : Option NodeState}
    (hdistinct : (locked.map (·.1)).Nodup) (hlocked : ∀ l ∈ locked, configs l.1 = l.2)
    (h : nodeId ∈ locked.map (·.1)) :
    stateAfter (locked.flatMap group) id nodeId state =
      stateAfter (group (nodeId, configs nodeId)) id nodeId state := by
  induction locked with
  | nil => cases h
  | cons l locked ih =>
    obtain ⟨hfresh, hdistinct⟩ := List.nodup_cons.mp hdistinct
    rw [List.flatMap_cons, stateAfter_append]
    rcases List.mem_cons.mp h with rfl | h
    · rw [stateAfter_groups_of_not_mem hgroup hfresh, hlocked l List.mem_cons_self]
    · have hne : l.1 ≠ nodeId := by
        rintro rfl
        exact hfresh h
      have hfirst : ∀ state, stateAfter (group l) id nodeId state = state :=
        stateAfter_of_within fun write hwrite => ⟨l.1, hgroup l write hwrite, fun heq => hne heq.2⟩
      rw [hfirst]
      exact ih hdistinct (fun l hl => hlocked l (.tail _ hl)) h

end

/-! ## Entries -/

/-- The entries of a config that a schedule wrote. -/
def own (id : String) (config : Option Config) : List Json :=
  (entriesOf config).filter (hasOrigin (originOf id))

def others (id : String) (config : Option Config) : List Json :=
  (entriesOf config).filter fun entry => !hasOrigin (originOf id) entry

theorem originOf_injective {id id' : String} (h : originOf id = originOf id') : id = id' := by
  have hlist := congrArg String.toList h
  rw [originOf, originOf, String.toList_append, String.toList_append] at hlist
  exact String.ext (List.append_cancel_left hlist)

/-- An entry has one origin. -/
theorem hasOrigin_unique {origin origin' : String} {entry : Json}
    (h : hasOrigin origin entry = true) (h' : hasOrigin origin' entry = true) :
    origin = origin' := by
  rw [hasOrigin, beq_iff_eq] at h h'
  exact Option.some.inj (h.symm.trans h')

/-- What a schedule wrote is among the entries of other origins than another's. -/
theorem own_eq_filter_others (h : id ≠ id') (config : Option Config) :
    own id' config = (others id config).filter (hasOrigin (originOf id')) := by
  unfold own others
  rw [List.filter_filter]
  refine List.filter_congr fun entry _ => ?_
  cases hown : hasOrigin (originOf id') entry with
  | false => rfl
  | true =>
    cases hid : hasOrigin (originOf id) entry with
    | false => rfl
    | true => exact absurd (originOf_injective (hasOrigin_unique hid hown)) h

theorem own_congr {config config' : Option Config} (h : id ≠ id')
    (hothers : others id config' = others id config) : own id' config' = own id' config := by
  rw [own_eq_filter_others h, own_eq_filter_others h, hothers]

/-! ## The group of a config -/

variable {specId : String} {timing : Timing} {enabled : Bool} {config : Option Config}

theorem addTo_within (l : String × Option Config) :
    ∀ write ∈ addTo id specId timing enabled l, write.Within id l.1 := by
  intro write hwrite
  unfold addTo inserted at hwrite
  rcases List.mem_append.mp hwrite with hwrite | hwrite
  · split at hwrite
    · cases List.mem_singleton.mp hwrite
      exact .insertConfig
    · cases hwrite
  · split at hwrite
    · cases List.mem_singleton.mp hwrite
      exact .upsertNode
    · rcases List.mem_cons.mp hwrite with rfl | hwrite
      · exact .setSchedules
      · cases List.mem_singleton.mp hwrite
        exact .upsertNode

theorem patchIn_within (l : String × Option Config) :
    ∀ write ∈ patchIn id timing enabled l, write.Within id l.1 := by
  intro write hwrite
  unfold patchIn inserted at hwrite
  rcases List.mem_append.mp hwrite with hwrite | hwrite
  · split at hwrite
    · cases List.mem_singleton.mp hwrite
      exact .insertConfig
    · cases hwrite
  · split at hwrite
    · cases List.mem_singleton.mp hwrite
      exact .setSchedules
    · cases hwrite

theorem removeFrom_within (l : String × Option Config) :
    ∀ write ∈ removeFrom id l, write.Within id l.1 := by
  intro write hwrite
  unfold removeFrom inserted at hwrite
  rcases List.mem_append.mp hwrite with hwrite | hwrite
  · split at hwrite
    · cases List.mem_singleton.mp hwrite
      exact .insertConfig
    · cases hwrite
  · cases List.mem_singleton.mp hwrite
    exact .setSchedules

theorem dropFrom_within (l : String × Option Config) :
    ∀ write ∈ dropFrom id l, write.Within id l.1 := by
  intro write hwrite
  rcases List.mem_append.mp hwrite with hwrite | hwrite
  · exact removeFrom_within l write hwrite
  · cases List.mem_singleton.mp hwrite
    exact .deleteNode

theorem configAfter_inserted (nodeId : String) (config : Option Config) :
    configAfter (inserted (nodeId, config)) nodeId config = some (config.getD .initial) := by
  cases config with
  | none => exact if_pos rfl
  | some config => rfl

theorem entriesOf_getD (config : Option Config) :
    entriesOf (some (config.getD .initial)) = entriesOf config := by
  cases config <;> rfl

theorem stateAfter_inserted (l : String × Option Config) (state : Option NodeState) :
    stateAfter (inserted l) id nodeId state = state := by
  unfold inserted
  split <;> rfl

theorem configAfter_setSchedules (nodeId : String) (entries : List Json) (config : Config) :
    configAfter [.setSchedules nodeId entries] nodeId (some config) =
      some ⟨config.generation + 1, config.specs, .arr entries⟩ := if_pos rfl

/-! ### Adding -/

theorem entriesOf_addTo (id specId : String) (timing : Timing) (enabled : Bool) (nodeId : String)
    (config : Option Config) :
    entriesOf (configAfter (addTo id specId timing enabled (nodeId, config)) nodeId config) =
      if hasSpec (entriesOf config) specId then entriesOf config
      else entriesOf config ++ [scheduleEntry specId timing enabled (originOf id)] := by
  unfold addTo
  rw [configAfter_append, configAfter_inserted]
  dsimp only
  split
  · exact entriesOf_getD config
  · have hset := configAfter_setSchedules nodeId
      (entriesOf config ++ [scheduleEntry specId timing enabled (originOf id)])
      (config.getD .initial)
    exact congrArg entriesOf hset

theorem stateAfter_addTo (id specId : String) (timing : Timing) (enabled : Bool) (nodeId : String)
    (config : Option Config) (state : Option NodeState) :
    stateAfter (addTo id specId timing enabled (nodeId, config)) id nodeId state =
      some (if hasSpec (entriesOf config) specId then .skippedExists else .active) := by
  unfold addTo
  rw [stateAfter_append, stateAfter_inserted]
  dsimp only
  split
  · exact if_pos ⟨rfl, rfl⟩
  · exact if_pos ⟨rfl, rfl⟩

theorem others_addTo (id specId : String) (timing : Timing) (enabled : Bool) (nodeId : String)
    (config : Option Config) :
    others id (configAfter (addTo id specId timing enabled (nodeId, config)) nodeId config) =
      others id config := by
  unfold others
  rw [entriesOf_addTo]
  split
  · rfl
  · rw [List.filter_append, List.filter_singleton, hasOrigin_scheduleEntry]
    simp

theorem own_addTo (id specId : String) (timing : Timing) (enabled : Bool) (nodeId : String)
    (config : Option Config) :
    own id (configAfter (addTo id specId timing enabled (nodeId, config)) nodeId config) =
      if hasSpec (entriesOf config) specId then own id config
      else own id config ++ [scheduleEntry specId timing enabled (originOf id)] := by
  unfold own
  rw [entriesOf_addTo]
  split
  · rfl
  · rw [List.filter_append, List.filter_singleton, hasOrigin_scheduleEntry]
    simp

/-! ### Patching -/

theorem entriesOf_patchIn (id : String) (timing : Timing) (enabled : Bool) (nodeId : String)
    (config : Option Config) :
    entriesOf (configAfter (patchIn id timing enabled (nodeId, config)) nodeId config) =
      (entriesOf config).map (patchEntry (originOf id) timing enabled) := by
  unfold patchIn
  rw [configAfter_append, configAfter_inserted]
  dsimp only
  split
  · exact congrArg entriesOf (configAfter_setSchedules nodeId _ (config.getD .initial))
  · next hnone =>
    rw [Bool.not_eq_true, List.any_eq_false] at hnone
    have hsame : ∀ entry ∈ entriesOf config,
        patchEntry (originOf id) timing enabled entry = entry :=
      fun entry hentry => patchEntry_other (Bool.eq_false_iff.mpr (hnone entry hentry))
    rw [List.map_congr_left hsame, List.map_id']
    exact entriesOf_getD config

theorem stateAfter_patchIn (l : String × Option Config) (state : Option NodeState) :
    stateAfter (patchIn id timing enabled l) id nodeId state = state := by
  unfold patchIn
  rw [stateAfter_append, stateAfter_inserted]
  split <;> rfl

theorem others_patchIn (id : String) (timing : Timing) (enabled : Bool) (nodeId : String)
    (config : Option Config) :
    others id (configAfter (patchIn id timing enabled (nodeId, config)) nodeId config) =
      others id config := by
  unfold others
  rw [entriesOf_patchIn, List.filter_map]
  have hkeep : ∀ entry ∈ entriesOf config,
      ((fun entry => !hasOrigin (originOf id) entry) ∘
        patchEntry (originOf id) timing enabled) entry = !hasOrigin (originOf id) entry :=
    fun entry _ => congrArg _ (hasOrigin_patchEntry _ _ _ _ entry)
  rw [List.filter_congr hkeep]
  refine (List.map_congr_left fun entry hentry => ?_).trans (List.map_id' _)
  have hother := (List.mem_filter.mp hentry).2
  exact patchEntry_other (Bool.not_eq_true' _ ▸ hother)

theorem own_patchIn (id : String) (timing : Timing) (enabled : Bool) (nodeId : String)
    (config : Option Config) :
    own id (configAfter (patchIn id timing enabled (nodeId, config)) nodeId config) =
      (own id config).map (patchEntry (originOf id) timing enabled) := by
  unfold own
  rw [entriesOf_patchIn, List.filter_map]
  have hkeep : ∀ entry ∈ entriesOf config,
      (hasOrigin (originOf id) ∘ patchEntry (originOf id) timing enabled) entry =
        hasOrigin (originOf id) entry :=
    fun entry _ => hasOrigin_patchEntry _ _ _ _ entry
  rw [List.filter_congr hkeep]

/-! ### Removing -/

theorem entriesOf_removeFrom (id nodeId : String) (config : Option Config) :
    entriesOf (configAfter (removeFrom id (nodeId, config)) nodeId config) = others id config := by
  unfold removeFrom
  rw [configAfter_append, configAfter_inserted]
  exact congrArg entriesOf (configAfter_setSchedules nodeId _ (config.getD .initial))

theorem stateAfter_removeFrom (l : String × Option Config) (state : Option NodeState) :
    stateAfter (removeFrom id l) id nodeId state = state := by
  unfold removeFrom
  rw [stateAfter_append, stateAfter_inserted]
  rfl

theorem others_removeFrom (id nodeId : String) (config : Option Config) :
    others id (configAfter (removeFrom id (nodeId, config)) nodeId config) = others id config := by
  conv_lhs => rw [others, entriesOf_removeFrom, others]
  rw [List.filter_filter]
  simp [others]

theorem own_removeFrom (id nodeId : String) (config : Option Config) :
    own id (configAfter (removeFrom id (nodeId, config)) nodeId config) = [] := by
  rw [own, entriesOf_removeFrom, others, List.filter_filter, List.filter_eq_nil_iff]
  intro entry _
  simp

theorem configAfter_dropFrom (l : String × Option Config) (config : Option Config) :
    configAfter (dropFrom id l) nodeId config = configAfter (removeFrom id l) nodeId config := by
  unfold dropFrom
  rw [configAfter_append]
  rfl

theorem stateAfter_dropFrom (config : Option Config) (state : Option NodeState) :
    stateAfter (dropFrom id (nodeId, config)) id nodeId state = none := by
  unfold dropFrom
  rw [stateAfter_append]
  exact if_pos ⟨rfl, rfl⟩

end Novbot.Schedules
