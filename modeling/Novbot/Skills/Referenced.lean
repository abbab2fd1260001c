import Novbot.Skills.Reconcile

/-!
# What the store holds

Every hash that an active entry names keeps its store directory, over any run of
reconciles.  Every store directory is named by an active entry as long as no skill
is uninstalled whose versions nothing else names, and no removal of a directory fails.
-/

namespace Novbot.Skills

open Novbot.Package Text

/-- An active entry names a hash. -/
def Named (active : ActiveSkills) (sha256 : String) : Prop :=
  ∃ name entry, active.lookup name = some entry ∧ entry.names sha256 = true

/-- What is named is in the store, with its marker. -/
def Kept (formats : Formats) (store : SortedMap String Directory) (active : ActiveSkills) : Prop :=
  ∀ sha256, Named active sha256 → storeVerified formats store sha256 = true

/-- What is in the store is named. -/
def NoLeak (store : SortedMap String Directory) (active : ActiveSkills) : Prop :=
  ∀ sha256, store.contains sha256 = true → Named active sha256

/-- The marker of a skill is read as it was printed. -/
def MarkerRead (formats : Formats) (skill : DesiredSkill) : Prop :=
  formats.json.parse (formats.json.print (marker skill.name skill.sha256 skill.version)) =
    some (marker skill.name skill.sha256 skill.version)

/-- No removal of a store directory fails. -/
def Attempt.Removes (attempt : Attempt) : Prop := ∀ removal sha256, attempt.left removal sha256 = none

theorem names_iff {entry : ActiveSkill} {sha256 : String} :
    entry.names sha256 = true ↔ entry.sha256 = sha256 ∨ sha256 ∈ entry.previous := by
  rw [ActiveSkill.names, Bool.or_eq_true, decide_eq_true_iff, List.contains_iff_mem]

/-! ## Store directories -/

section

variable {formats : Formats} {attempt : Attempt} {skill : DesiredSkill}
  {store store' : SortedMap String Directory}

theorem removeStore_other {left : Option (String → Bool)} {sha256 other : String}
    (h : other ≠ sha256) : (removeStore left sha256 store).lookup other = store.lookup other := by
  have hfilter : (store.filter fun name _ => name ≠ sha256).lookup other = store.lookup other := by
    rw [SortedMap.lookup_filter]
    cases hother : store.lookup other with
    | none => rfl
    | some dir => exact if_pos (decide_eq_true h)
  unfold removeStore
  split
  · rw [SortedMap.lookup_insert, if_neg h]
  · exact hfilter

theorem removeStore_removes (sha256 : String) :
    (removeStore none sha256 store).lookup sha256 = none := by
  have hfilter : (store.filter fun name _ => name ≠ sha256).lookup sha256 = none := by
    rw [SortedMap.lookup_filter]
    cases hown : store.lookup sha256 with
    | none => rfl
    | some dir => exact if_neg (by simp)
  exact hfilter

/-- A marker names the hash of its skill. -/
theorem markerSha_sealedFiles (h : MarkerRead formats skill) (package : Package) :
    markerSha formats (sealedFiles formats skill package) = some skill.sha256 := by
  unfold markerSha sealedFiles
  rw [SortedMap.lookup_insert, if_pos rfl]
  simp only [Option.bind_eq_bind, Option.bind_some, markerBytes, fromUtf8_utf8, String.ofList_toList]
  rw [h]
  rfl

/-- Sealing is about the directory of its skill only. -/
theorem sealStore_other {package : Package} {result : Except InstallError Unit} {other : String}
    (h : sealStore formats attempt skill package store = (result, store'))
    (hother : other ≠ skill.sha256) : store'.lookup other = store.lookup other := by
  unfold sealStore at h
  dsimp only at h
  split at h
  · cases h
    rfl
  · split at h
    · cases h
      rfl
    · split at h
      · cases h
        exact removeStore_other hother
      · split at h
        · cases h
          exact removeStore_other hother
        · split at h
          · cases h
            rw [removeStore_other hother, SortedMap.lookup_insert, if_neg hother,
              removeStore_other hother]
          · cases h
            rw [SortedMap.lookup_insert, if_neg hother, removeStore_other hother]

theorem sealStore_own {package : Package}
    (h : sealStore formats attempt skill package store = (.ok (), store')) :
    store'.lookup skill.sha256 = some (sealedFiles formats skill package) := by
  unfold sealStore at h
  dsimp only at h
  split at h
  · cases h
  · split at h
    · cases h
    · split at h
      · cases h
      · split at h
        · cases h
        · split at h
          · cases h
          · cases h
            rw [SortedMap.lookup_insert, if_pos rfl]

/-- Sealing that fails adds nothing when removals succeed. -/
theorem sealStore_error {package : Package} {err : InstallError}
    (h : sealStore formats attempt skill package store = (.error err, store'))
    (hremoves : attempt.Removes) {sha256 : String} (hstore : store'.contains sha256 = true) :
    store.contains sha256 = true := by
  by_cases hown : sha256 = skill.sha256
  case neg => rwa [SortedMap.contains, sealStore_other h hown] at hstore
  case pos =>
    subst hown
    have hstale : attempt.left .stale skill.sha256 = none := hremoves _ _
    have hunsealed : attempt.left .unsealed skill.sha256 = none := hremoves _ _
    unfold sealStore at h
    rw [hstale, hunsealed] at h
    dsimp only at h
    split at h
    · cases h
      exact hstore
    · split at h
      · cases h
        exact hstore
      · split at h
        · cases h
          rw [SortedMap.contains, removeStore_removes] at hstore
          cases hstore
        · split at h
          · cases h
            rw [SortedMap.contains, removeStore_removes] at hstore
            cases hstore
          · split at h
            · cases h
              rw [SortedMap.contains, removeStore_removes] at hstore
              cases hstore
            · cases h

end

/-! ## Names -/

section

variable {attempt : Attempt} {skill : DesiredSkill} {policy : SkillPolicy} {active : ActiveSkills}

theorem named_insert {name : String} {installed : ActiveSkill} {sha256 : String} :
    Named (active.insert name installed) sha256 ↔ installed.names sha256 = true ∨
      ∃ other entry, other ≠ name ∧ active.lookup other = some entry ∧ entry.names sha256 = true := by
  constructor
  · rintro ⟨other, entry, hentry, hnames⟩
    rw [SortedMap.lookup_insert] at hentry
    split at hentry
    · cases hentry
      exact .inl hnames
    · next hne => exact .inr ⟨other, entry, hne, hentry, hnames⟩
  · rintro (hnames | ⟨other, entry, hne, hentry, hnames⟩)
    · exact ⟨name, installed, by rw [SortedMap.lookup_insert, if_pos rfl], hnames⟩
    · exact ⟨other, entry, by rw [SortedMap.lookup_insert, if_neg hne, hentry], hnames⟩

/-- What is referenced is what is named with the new entry. -/
theorem shaReferenced_iff {installed : ActiveSkill} {sha256 : String}
    (hsha : installed.sha256 = skill.sha256) :
    shaReferenced skill active sha256 installed.previous = true ↔
      Named (active.insert skill.name installed) sha256 := by
  rw [named_insert, names_iff, hsha, shaReferenced, Bool.or_eq_true, Bool.or_eq_true,
    decide_eq_true_iff, List.contains_iff_mem, List.any_eq_true, eq_comm]
  refine or_congr Iff.rfl ⟨?_, ?_⟩
  · rintro ⟨⟨other, entry⟩, hmem, hother⟩
    obtain ⟨hne, hnames⟩ := Bool.and_eq_true_iff.mp hother
    exact ⟨other, entry, of_decide_eq_true hne, SortedMap.lookup_eq_some_iff.mpr hmem, hnames⟩
  · rintro ⟨other, entry, hne, hentry, hnames⟩
    exact ⟨(other, entry), SortedMap.lookup_eq_some_iff.mp hentry,
      Bool.and_eq_true_iff.mpr ⟨decide_eq_true hne, hnames⟩⟩

theorem mem_previousOf {sha256 : String} (h : sha256 ∈ previousOf skill active) :
    Named active sha256 := by
  unfold previousOf at h
  cases hcurrent : active.lookup skill.name with
  | none =>
    rw [hcurrent] at h
    cases h
  | some current =>
    rw [hcurrent] at h
    refine ⟨skill.name, current, hcurrent, names_iff.mpr ?_⟩
    dsimp only at h
    split at h
    · rcases List.mem_cons.mp h with rfl | hprevious
      · exact .inl rfl
      · exact .inr hprevious
    · exact .inr h

theorem previousOf_complete {current : ActiveSkill} {sha256 : String}
    (hcurrent : active.lookup skill.name = some current) (hnames : current.names sha256 = true) :
    sha256 = skill.sha256 ∨ sha256 ∈ previousOf skill active := by
  unfold previousOf
  rw [hcurrent]
  dsimp only
  rcases names_iff.mp hnames with rfl | hprevious
  · split
    · exact .inr List.mem_cons_self
    · next heq => exact .inl (not_not.mp heq)
  · right
    split
    · exact .tail _ hprevious
    · exact hprevious

/-! ## Dropped versions -/

theorem activate_previous {limits : LimitsToml} {mid : Disk} :
    (activate attempt skill policy active limits mid).1.previous =
      (previousOf skill active).take policy.keepPreviousVersions := by
  unfold activate trimPrevious
  rw [List.splitAt_eq]

theorem activate_store {limits : LimitsToml} {mid : Disk} :
    (activate attempt skill policy active limits mid).2.store =
      removeDropped attempt skill active (activate attempt skill policy active limits mid).1.previous
        ((previousOf skill active).drop policy.keepPreviousVersions) mid.store := by
  unfold activate trimPrevious
  rw [List.splitAt_eq]

theorem removeDropped_referenced {previous dropped : List String}
    {store : SortedMap String Directory} {sha256 : String}
    (h : shaReferenced skill active sha256 previous = true) :
    (removeDropped attempt skill active previous dropped store).lookup sha256 =
      store.lookup sha256 := by
  induction dropped generalizing store with
  | nil => rfl
  | cons sha dropped ih =>
    refine ih.trans ?_
    dsimp only
    split
    · rfl
    · next hsha => exact removeStore_other fun heq => hsha (heq ▸ h)

theorem removeDropped_contains {previous dropped : List String} {store : SortedMap String Directory}
    {sha256 : String} (hremoves : attempt.Removes)
    (h : (removeDropped attempt skill active previous dropped store).contains sha256 = true) :
    store.contains sha256 = true ∧
      (sha256 ∈ dropped → shaReferenced skill active sha256 previous = true) := by
  induction dropped generalizing store with
  | nil => exact ⟨h, fun hmem => by cases hmem⟩
  | cons sha dropped ih =>
    obtain ⟨hstore, hdropped⟩ := ih h
    dsimp only at hstore
    cases hreferenced : shaReferenced skill active sha previous with
    | true =>
      rw [hreferenced, if_pos rfl] at hstore
      refine ⟨hstore, fun hmem => ?_⟩
      rcases List.mem_cons.mp hmem with rfl | hmem
      · exact hreferenced
      · exact hdropped hmem
    | false =>
      rw [hreferenced, if_neg Bool.false_ne_true, hremoves] at hstore
      have hne : sha256 ≠ sha := by
        rintro rfl
        rw [SortedMap.contains, removeStore_removes] at hstore
        cases hstore
      rw [SortedMap.contains, removeStore_other hne] at hstore
      exact ⟨hstore, fun hmem => hdropped ((List.mem_cons.mp hmem).resolve_left hne)⟩

end

/-! ## One turn -/

section

variable {setup : Setup} {policy : SkillPolicy} {env : Nat → Attempt} {skill : DesiredSkill}
  {progress : Progress}

/-- What was verified at the start of a turn is as it was. -/
def Untouched (formats : Formats) (start store : SortedMap String Directory) : Prop :=
  ∀ sha256, storeVerified formats start sha256 = true → store.lookup sha256 = start.lookup sha256

theorem storeVerified_congr {formats : Formats} {store store' : SortedMap String Directory}
    {sha256 : String} (h : store'.lookup sha256 = store.lookup sha256) :
    storeVerified formats store' sha256 = storeVerified formats store sha256 := by
  rw [storeVerified, storeVerified, h]

theorem Untouched.verified {formats : Formats} {start store : SortedMap String Directory}
    (h : Untouched formats start store) {sha256 : String}
    (hsha : storeVerified formats start sha256 = true) :
    storeVerified formats store sha256 = true :=
  (storeVerified_congr (h sha256 hsha)).trans hsha

theorem untouched_unstored {start store store' : SortedMap String Directory} {attempt : Attempt}
    (h : Untouched setup.formats start store) (hunstored : Unstored setup attempt skill store store') :
    Untouched setup.formats start store' := by
  cases hunstored with
  | same hsame => exact hsame ▸ h
  | unsealed package bytes err hverified hopened hstored =>
    intro sha256 hsha
    have hne : sha256 ≠ skill.sha256 := by
      rintro rfl
      rw [h.verified hsha] at hverified
      cases hverified
    rw [sealStore_other hstored hne, h sha256 hsha]

theorem untouched_stored {start store store' : SortedMap String Directory} {attempt : Attempt}
    {limits : LimitsToml} (h : Untouched setup.formats start store)
    (hstored : Stored setup attempt skill limits store store') :
    Untouched setup.formats start store' := by
  cases hstored with
  | reused dir hverified hfound hwasm htoml hlimits hsame => exact hsame ▸ h
  | sealed package bytes hverified hopened hlimits hstored =>
    intro sha256 hsha
    have hne : sha256 ≠ skill.sha256 := by
      rintro rfl
      rw [h.verified hsha] at hverified
      cases hverified
    rw [sealStore_other hstored hne, h sha256 hsha]

theorem stored_verified {store store' : SortedMap String Directory} {attempt : Attempt}
    {limits : LimitsToml} (hread : MarkerRead setup.formats skill)
    (hstored : Stored setup attempt skill limits store store') :
    storeVerified setup.formats store' skill.sha256 = true := by
  cases hstored with
  | reused dir hverified hfound hwasm htoml hlimits hsame => exact hsame ▸ hverified
  | sealed package bytes hverified hopened hlimits hstored =>
    exact (storeVerified_iff _).mpr ⟨_, sealStore_own hstored, markerSha_sealedFiles hread package⟩

/-- What the new entry of a turn names. -/
theorem named_activate {attempt : Attempt} {active : ActiveSkills} {limits : LimitsToml} {mid : Disk}
    {sha256 : String}
    (h : Named (active.insert skill.name (activate attempt skill policy active limits mid).1) sha256) :
    sha256 = skill.sha256 ∨ Named active sha256 := by
  rcases named_insert.mp h with hnames | ⟨other, entry, -, hentry, hnames⟩
  · rcases names_iff.mp hnames with rfl | hprevious
    · exact .inl rfl
    · rw [activate_previous] at hprevious
      exact .inr (mem_previousOf (List.mem_of_mem_take hprevious))
  · exact .inr ⟨other, entry, hentry, hnames⟩

/-- A turn keeps the directories of what is named after it. -/
theorem turn_store (hread : MarkerRead setup.formats skill)
    (hkept : Kept setup.formats progress.disk.store progress.active) {sha256 : String}
    (hnamed : Named (progress.turn setup policy env skill).active sha256) :
    storeVerified setup.formats (progress.turn setup policy env skill).disk.store sha256 = true ∧
      (Named progress.active sha256 → (progress.turn setup policy env skill).disk.store.lookup sha256 =
        progress.disk.store.lookup sha256) := by
  rcases @turn_stores setup policy env skill
    (fun disk => Untouched setup.formats progress.disk.store disk.store) progress
    (fun i disk disk' h _ hunstored => untouched_unstored h hunstored) (fun _ _ => rfl) with
    ⟨-, hactive, hdisk⟩ | ⟨-, i, disk, limits, mid, hdisk, -, hstored, hactive, heq⟩
  · rw [hactive] at hnamed
    exact ⟨hdisk.verified (hkept sha256 hnamed), fun h => hdisk sha256 (hkept sha256 h)⟩
  · have hmid := untouched_stored hdisk hstored
    rw [hactive] at hnamed
    have hsame : (progress.turn setup policy env skill).disk.store.lookup sha256 =
        mid.store.lookup sha256 := by
      rw [heq, activate_store]
      exact removeDropped_referenced ((shaReferenced_iff rfl).mpr hnamed)
    refine ⟨(storeVerified_congr hsame).trans ?_, fun h => hsame.trans (hmid sha256 (hkept sha256 h))⟩
    rcases named_activate hnamed with rfl | h
    · exact stored_verified hread hstored
    · exact hmid.verified (hkept sha256 h)

theorem turn_kept (hread : MarkerRead setup.formats skill)
    (hkept : Kept setup.formats progress.disk.store progress.active) :
    Kept setup.formats (progress.turn setup policy env skill).disk.store
      (progress.turn setup policy env skill).active :=
  fun _ hnamed => (turn_store hread hkept hnamed).1

theorem turn_noLeak (hremoves : ∀ i, (env i).Removes)
    (hnoLeak : NoLeak progress.disk.store progress.active) :
    NoLeak (progress.turn setup policy env skill).disk.store
      (progress.turn setup policy env skill).active := by
  rcases @turn_stores setup policy env skill (fun disk => NoLeak disk.store progress.active) progress
    (fun i disk disk' h _ hunstored => by
      intro sha256 hstore
      cases hunstored with
      | same hsame => exact h sha256 (hsame ▸ hstore)
      | unsealed package bytes err _ _ hstored =>
        exact h sha256 (sealStore_error hstored (hremoves i) hstore)) hnoLeak with
    ⟨-, hactive, hdisk⟩ | ⟨-, i, disk, limits, mid, hdisk, -, hstored, hactive, heq⟩
  · rw [hactive]
    exact hdisk
  · rw [hactive, heq, activate_store]
    intro sha256 hstore
    obtain ⟨hmid, hdropped⟩ := removeDropped_contains (hremoves i) hstore
    by_cases hown : sha256 = skill.sha256
    · exact named_insert.mpr (.inl (names_iff.mpr (.inl hown.symm)))
    have hdiskStore : disk.store.contains sha256 = true := by
      cases hstored with
      | reused dir _ _ _ _ _ hsame => exact hsame ▸ hmid
      | sealed package bytes _ _ _ hsealed => rwa [SortedMap.contains, sealStore_other hsealed hown] at hmid
    obtain ⟨other, entry, hentry, hnames⟩ := hdisk sha256 hdiskStore
    by_cases hname : other = skill.name
    · subst hname
      have hprevious := (previousOf_complete hentry hnames).resolve_left hown
      rw [← List.take_append_drop policy.keepPreviousVersions (previousOf skill progress.active)]
        at hprevious
      rcases List.mem_append.mp hprevious with hkept | hdrop
      · rw [← @activate_previous (env i) skill policy progress.active limits mid] at hkept
        exact named_insert.mpr (.inl (names_iff.mpr (.inr hkept)))
      · exact (shaReferenced_iff rfl).mp (hdropped hdrop)
    · exact named_insert.mpr (.inr ⟨other, entry, hname, hentry, hnames⟩)

end

/-! ## Runs -/

/-- A reconcile gives back the space of what it uninstalls: other entries that stay name
it too, and no removal fails. -/
structure Reclaims (host : Host) (desired : DesiredSet) (conditions : Conditions) : Prop where
  named : ∀ sha256, Named host.inner.skills sha256 →
    Named (retained host.inner.skills desired.skills) sha256
  removes : ∀ i k, (conditions.attempts i k).Removes

/-- Every reconcile of a run that has something to do gives back the space. -/
def Host.Reclaiming (setup : Setup) (host : Host) : List (DesiredSet × Conditions) → Prop
  | [] => True
  | step :: steps =>
    (host.inner.isNoop step.1 = false → Reclaims host step.1 step.2) ∧
      (host.reconcile setup step.1 step.2).1.Reclaiming setup steps

section

variable {setup : Setup} {policy : SkillPolicy}

theorem turns_kept {skills : List DesiredSkill} {env : Nat → Nat → Attempt} {progress : Progress}
    (hread : ∀ skill ∈ skills, MarkerRead setup.formats skill)
    (hkept : Kept setup.formats progress.disk.store progress.active) :
    Kept setup.formats (progress.turns setup policy skills env).disk.store
      (progress.turns setup policy skills env).active := by
  induction skills generalizing env progress with
  | nil => exact hkept
  | cons skill skills ih =>
    exact ih (fun later hlater => hread later (.tail _ hlater))
      (turn_kept (hread skill List.mem_cons_self) hkept)

theorem turns_noLeak {skills : List DesiredSkill} {env : Nat → Nat → Attempt} {progress : Progress}
    (hremoves : ∀ i k, (env i k).Removes) (hnoLeak : NoLeak progress.disk.store progress.active) :
    NoLeak (progress.turns setup policy skills env).disk.store
      (progress.turns setup policy skills env).active := by
  induction skills generalizing env progress with
  | nil => exact hnoLeak
  | cons skill skills ih => exact ih (fun i => hremoves (i + 1)) (turn_noLeak (hremoves 0) hnoLeak)

/-- What stays active was active. -/
theorem named_of_retained {active : ActiveSkills} {skills : List DesiredSkill} {sha256 : String}
    (h : Named (retained active skills) sha256) : Named active sha256 := by
  obtain ⟨name, entry, hentry, hnames⟩ := h
  rw [lookup_retained] at hentry
  split at hentry
  · exact ⟨name, entry, hentry, hnames⟩
  · cases hentry

/-- The store and the active skills after a reconcile. -/
theorem reconcile_store {host : Host} {desired : DesiredSet} {conditions : Conditions}
    (h : host.inner.isNoop desired = false) :
    (host.reconcile setup desired conditions).1.disk.store =
        (host.settled setup desired conditions).disk.store ∧
      (host.reconcile setup desired conditions).1.inner.skills =
        (host.settled setup desired conditions).active := by
  rw [(reconcile_of_not_noop h).1, reconcile_disk h]
  refine ⟨?_, rfl⟩
  split
  · rfl
  · rfl

theorem reconcile_kept {host : Host} {desired : DesiredSet} {conditions : Conditions}
    (hread : ∀ skill ∈ desired.skills, MarkerRead setup.formats skill)
    (hkept : Kept setup.formats host.disk.store host.inner.skills) :
    Kept setup.formats (host.reconcile setup desired conditions).1.disk.store
      (host.reconcile setup desired conditions).1.inner.skills := by
  cases h : host.inner.isNoop desired with
  | true => rwa [reconcile_of_noop h]
  | false =>
    rw [(reconcile_store h).1, (reconcile_store h).2]
    exact turns_kept hread fun sha256 hnamed => hkept sha256 (named_of_retained hnamed)

theorem reconcile_noLeak {host : Host} {desired : DesiredSet} {conditions : Conditions}
    (hreclaims : host.inner.isNoop desired = false → Reclaims host desired conditions)
    (hnoLeak : NoLeak host.disk.store host.inner.skills) :
    NoLeak (host.reconcile setup desired conditions).1.disk.store
      (host.reconcile setup desired conditions).1.inner.skills := by
  cases h : host.inner.isNoop desired with
  | true => rwa [reconcile_of_noop h]
  | false =>
    obtain ⟨hnamed, hremoves⟩ := hreclaims h
    rw [(reconcile_store h).1, (reconcile_store h).2]
    exact turns_noLeak hremoves fun sha256 hstore => hnamed sha256 (hnoLeak sha256 hstore)

theorem run_kept {host : Host} {steps : List (DesiredSet × Conditions)}
    (hread : ∀ step ∈ steps, ∀ skill ∈ step.1.skills, MarkerRead setup.formats skill)
    (hkept : Kept setup.formats host.disk.store host.inner.skills) :
    Kept setup.formats (host.run setup steps).disk.store (host.run setup steps).inner.skills := by
  induction steps generalizing host with
  | nil => exact hkept
  | cons step steps ih =>
    exact ih (fun later hlater => hread later (.tail _ hlater))
      (reconcile_kept (hread step List.mem_cons_self) hkept)

theorem run_noLeak {host : Host} {steps : List (DesiredSet × Conditions)}
    (hreclaiming : host.Reclaiming setup steps)
    (hnoLeak : NoLeak host.disk.store host.inner.skills) :
    NoLeak (host.run setup steps).disk.store (host.run setup steps).inner.skills := by
  induction steps generalizing host with
  | nil => exact hnoLeak
  | cons step steps ih => exact ih hreclaiming.2 (reconcile_noLeak hreclaiming.1 hnoLeak)

/-! ## From an empty store -/

variable {formats : Formats} {stamp : String} {writeFails : Option String}

/-- Opening an empty store finds every skill of `state.json` missing. -/
theorem openSkills_missing {disk : Disk} (hempty : disk.store = .empty)
    (entries : List (String × DiskSkill)) (failures : List ReportedSkill) :
    ∃ failures', entries.foldlM
        (fun opening (name, skill) => openSkill formats stamp opening name skill) ⟨disk, failures⟩ =
        .ok ⟨disk, failures'⟩ ∧
      failures'.map (·.name) = failures.map (·.name) ++ entries.map (·.1) := by
  induction entries generalizing failures with
  | nil => exact ⟨failures, rfl, (List.append_nil _).symm⟩
  | cons entry entries ih =>
    obtain ⟨name, skill⟩ := entry
    have hverify : verifyActive formats disk.store skill.sha256 =
        .error (tampered "verified marker is missing") := by
      rw [hempty]
      rfl
    have hquarantine : quarantineStore stamp skill.sha256 disk = .ok disk := by
      rw [quarantineStore, hempty]
      rfl
    obtain ⟨failures', hfold, hnames⟩ := ih (failures ++ [⟨name, skill.version, skill.sha256, .failed,
      some .storeTampered, "verified marker is missing", 0, skill.previous⟩])
    refine ⟨failures', ?_, ?_⟩
    · rw [List.foldlM_cons]
      dsimp only
      rw [openSkill, hverify]
      dsimp only
      rw [hquarantine]
      exact hfold
    · rw [hnames, List.map_append, List.append_assoc]
      rfl

theorem openHost_empty {disk : Disk} {host : Host} (hempty : disk.store = .empty)
    (h : openHost formats stamp writeFails disk = .ok host) :
    host.disk.store = .empty ∧ host.inner.skills = .empty := by
  obtain ⟨failures, hfold, hnames⟩ := @openSkills_missing formats stamp disk hempty
    disk.stated.skills.entries []
  have hlisted : ∀ {name : String} {skill : DiskSkill}, disk.stated.skills.lookup name = some skill →
      name ∈ failures.map (·.name) := by
    intro name skill hskill
    rw [hnames]
    exact List.mem_map_of_mem (SortedMap.lookup_eq_some_iff.mp hskill)
  rw [openHost, ← Disk.stated] at h
  dsimp only at h
  rw [hfold] at h
  cases failures with
  | nil =>
    cases h
    refine ⟨hempty, SortedMap.ext_lookup fun name => ?_⟩
    cases hskill : disk.stated.skills.lookup name with
    | none => rw [SortedMap.lookup_map, hskill, Option.map_none, SortedMap.lookup_empty]
    | some skill => cases hlisted hskill
  | cons failure failures =>
    cases writeFails with
    | some err => cases h
    | none =>
      cases h
      refine ⟨hempty, SortedMap.ext_lookup fun name => ?_⟩
      have hnone : (openedState disk.stated (failure :: failures)).skills.lookup name = none := by
        rw [openedState, SortedMap.lookup_filter]
        cases hskill : disk.stated.skills.lookup name with
        | none => rfl
        | some skill =>
          refine Option.filter_some_neg ?_
          rw [List.contains_iff_mem.mpr (hlisted hskill)]
          rfl
      rw [SortedMap.lookup_map, hnone, Option.map_none, SortedMap.lookup_empty]

end

/-! ## The space of what is uninstalled -/

/-- After a run from an empty store, what is named is in the store.  When each reconcile
gives back the space of what it uninstalls, what is in the store is named. -/
theorem store_referenced {setup : Setup} {stamp : String} {writeFails : Option String} {disk : Disk}
    {host : Host} (hempty : disk.store = .empty)
    (hopened : openHost setup.formats stamp writeFails disk = .ok host)
    {steps : List (DesiredSet × Conditions)}
    (hread : ∀ step ∈ steps, ∀ skill ∈ step.1.skills, MarkerRead setup.formats skill) :
    (∀ sha256, Named (host.run setup steps).inner.skills sha256 →
        (host.run setup steps).disk.store.contains sha256 = true) ∧
      (host.Reclaiming setup steps → ∀ sha256,
        (host.run setup steps).disk.store.contains sha256 = true →
          Named (host.run setup steps).inner.skills sha256) := by
  obtain ⟨hstore, hskills⟩ := openHost_empty hempty hopened
  constructor
  · intro sha256 hnamed
    have hkept : Kept setup.formats host.disk.store host.inner.skills := by
      rintro sha256 ⟨name, entry, hentry, -⟩
      rw [hskills, SortedMap.lookup_empty] at hentry
      cases hentry
    obtain ⟨dir, hdir, -⟩ := (storeVerified_iff _).mp (run_kept hread hkept sha256 hnamed)
    rw [SortedMap.contains, hdir]
    rfl
  · intro hreclaiming
    refine run_noLeak hreclaiming fun sha256 hcontains => ?_
    rw [hstore] at hcontains
    cases hcontains

/-- An attempt at which the source sends the package. -/
def servedAttempt : Attempt :=
  { refusedAttempt with fetch := fun offset => .ok ⟨widerPackage.length, widerPackage.drop offset⟩ }

def serving : Conditions := ⟨fun _ _ => servedAttempt, none⟩

theorem store_referenced_uptime :
    (∀ sha256, Named (freshHost.run uptimeSetup [(desiredOne 1 [uptimeSkill], serving)]).inner.skills
        sha256 → (freshHost.run uptimeSetup
          [(desiredOne 1 [uptimeSkill], serving)]).disk.store.contains sha256 = true) ∧
      (freshHost.Reclaiming uptimeSetup [(desiredOne 1 [uptimeSkill], serving)] → ∀ sha256,
        (freshHost.run uptimeSetup
          [(desiredOne 1 [uptimeSkill], serving)]).disk.store.contains sha256 = true →
          Named (freshHost.run uptimeSetup [(desiredOne 1 [uptimeSkill], serving)]).inner.skills sha256) :=
  @store_referenced uptimeSetup "0" none .empty freshHost rfl rfl
    [(desiredOne 1 [uptimeSkill], serving)] fun step hstep skill hskill => by
      cases List.mem_singleton.mp hstep
      cases List.mem_singleton.mp hskill
      rfl

/-- A skill is installed and then uninstalled.  Its directory stays, and nothing names it. -/
theorem uninstalled_leaks :
    let host := freshHost.run uptimeSetup
      [(desiredOne 1 [uptimeSkill], serving), (desiredOne 2 [], serving)]
    host.disk.store.contains uptimeSha256 = true ∧ ¬ Named host.inner.skills uptimeSha256 := by
  intro host
  obtain ⟨hstore, hskills⟩ : host.disk.store.contains uptimeSha256 = true ∧
      host.inner.skills = .empty := by decide +kernel
  refine ⟨hstore, ?_⟩
  rintro ⟨name, entry, hentry, -⟩
  rw [hskills] at hentry
  cases hentry

end Novbot.Skills
