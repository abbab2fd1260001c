import Novbot.Control.Message
import Novbot.Skills.Restart

/-!
# Stopped reconciles

A node may stop at any point of a reconcile: between two file operations, or while a store
directory is being removed.  `state.json` is replaced as a whole in the end, and until then no
directory is removed that an active skill of the old file runs from.  So a host that starts
again has the skills from before the reconcile, or those that it came to, and all of them verify
(`stopped_atomic`).
-/

namespace Novbot.Skills

open Novbot.Package Text

/-! ## Policies on the wire -/

/-- `nonzero_u32`, and the same for the quota. -/
def nonzero (value : Int) (default : Nat) : Nat :=
  if value ≤ 0 then default else value.toNat

def SkillPolicy.fromProto : Option Control.SkillPolicy → SkillPolicy
  | none => defaultPolicy
  | some policy =>
    { maxConcurrentRuns := nonzero policy.maxConcurrentRuns defaultPolicy.maxConcurrentRuns
      keepPreviousVersions := nonzero policy.keepPreviousVersions defaultPolicy.keepPreviousVersions
      storeQuotaBytes := nonzero policy.storeQuotaBytes defaultPolicy.storeQuotaBytes
      maxTimeoutMs := nonzero policy.maxTimeoutMs defaultPolicy.maxTimeoutMs
      maxMemoryMb := nonzero policy.maxMemoryMb defaultPolicy.maxMemoryMb }

theorem nonzero_pos {value : Int} {default : Nat} (h : 0 < default) : 0 < nonzero value default := by
  unfold nonzero
  split
  · exact h
  · omega

/-- A node keeps the version before the active one, whatever the center sends. -/
theorem fromProto_keeps (policy : Option Control.SkillPolicy) :
    0 < (SkillPolicy.fromProto policy).keepPreviousVersions := by
  cases policy with
  | none => exact Nat.succ_pos 1
  | some policy => exact nonzero_pos (Nat.succ_pos 1)

/-! ## Where a process stops -/

section

variable (setup : Setup) (attempt : Attempt) (skill : DesiredSkill) (policy : SkillPolicy)
  (active : ActiveSkills)

/-- An attempt has come to where it seals the package, if it had to fetch one. -/
structure Prepared (disk : Disk) (package : Option Package) (cached : Disk) : Prop where
  spoken : skill.abi = abi
  room : storeHasRoom setup.formats disk.store skill.sha256 skill.sizeBytes
    policy.storeQuotaBytes = true
  compiled : ∃ fetched wasm limits, obtainPackage setup attempt skill disk = (.ok package, fetched) ∧
    readPackage setup attempt skill fetched.store package = .ok (wasm, limits) ∧
    ensureCache setup attempt skill wasm fetched = (.ok (), cached)

/-- The staging directory of a package has taken its place in the store. -/
structure Renamed (package : Package) (store store' : SortedMap String Directory) : Prop where
  staged : attempt.io .staging = none
  written : conflicting (sealedFiles setup.formats skill package) = false
  renames : attempt.io .rename = none
  vacant : ∀ dir, (removeStore (attempt.left .stale skill.sha256) skill.sha256 store).lookup
    skill.sha256 = some dir → dir.entries = []
  placed : store' = (removeStore (attempt.left .stale skill.sha256) skill.sha256 store).insert
    skill.sha256 (sealedFiles setup.formats skill package)

/-- The store when the process stops in an attempt.  A directory that is being removed has lost
some of its files. -/
inductive Halted (disk : Disk) : SortedMap String Directory → Prop where
  | untouched : Halted disk disk.store
  /-- What is in the way of the package is being removed. -/
  | clearing (package : Package) (cached : Disk) (left : Option (String → Bool))
    (prepared : Prepared setup attempt skill policy disk (some package) cached) :
    Halted disk (removeStore left skill.sha256 cached.store)
  | renamed (package : Package) (cached : Disk) (store : SortedMap String Directory)
    (prepared : Prepared setup attempt skill policy disk (some package) cached)
    (renamed : Renamed setup attempt skill package cached.store store) : Halted disk store
  /-- The package is being removed again. -/
  | unsealing (package : Package) (cached : Disk) (store : SortedMap String Directory)
    (left : Option (String → Bool)) (err : String)
    (prepared : Prepared setup attempt skill policy disk (some package) cached)
    (renamed : Renamed setup attempt skill package cached.store store)
    (unsealed : attempt.io .chmod = some err) : Halted disk (removeStore left skill.sha256 store)
  /-- A dropped version is being removed. -/
  | dropping (package : Option Package) (cached mid : Disk) (seen rest : List String)
    (sha256 : String) (left : Option (String → Bool))
    (prepared : Prepared setup attempt skill policy disk package cached)
    (sealed : sealPackage setup attempt skill package cached = (.ok (), mid))
    (dropped : (trimPrevious (previousOf skill active) policy.keepPreviousVersions).2 =
      seen ++ sha256 :: rest)
    (unreferenced : shaReferenced skill active sha256
      (trimPrevious (previousOf skill active) policy.keepPreviousVersions).1 = false) :
    Halted disk (removeStore left sha256 (removeDropped attempt skill active
      (trimPrevious (previousOf skill active) policy.keepPreviousVersions).1 seen mid.store))

/-- The files after the first attempts of a turn, when they failed and are made again. -/
inductive Tried (env : Nat → Attempt) (disk : Disk) : Nat → Disk → Prop where
  | start : Tried env disk 0 disk
  | again (made : Nat) (disk' after : Disk) (err : InstallError) (earlier : Tried env disk made disk')
    (failed : tryInstall setup (env made) skill policy active disk' = (.error err, after))
    (retryable : err.reason.retryable = true) : Tried env disk (made + 1) after

end

section

variable (setup : Setup) (host : Host) (desired : DesiredSet) (conditions : Conditions)

/-- The progress of a reconcile after its first turns. -/
def Host.after (seen : List DesiredSkill) : Progress :=
  (host.begin desired).turns setup desired.policy seen conditions.attempts

/-- The files when the process stops in a reconcile.  What it may have written to the cache and
to the partial files is of no account. -/
inductive Stopped : Disk → Prop where
  /-- In the turn of a skill. -/
  | turn (seen rest : List DesiredSkill) (skill : DesiredSkill) (made : Nat) (tried : Disk)
    (store : SortedMap String Directory) (cache downloads : SortedMap String Bytes)
    (skills : desired.skills = seen ++ skill :: rest)
    (attempts : Tried setup skill desired.policy (host.after setup desired conditions seen).active
      (conditions.attempts seen.length) (host.after setup desired conditions seen).disk made tried)
    (halted : Halted setup (conditions.attempts seen.length made) skill desired.policy
      (host.after setup desired conditions seen).active tried store) :
    Stopped ⟨store, cache, downloads, tried.quarantine, tried.state⟩
  /-- Before `state.json` is replaced. -/
  | settled : Stopped (host.settled setup desired conditions).disk
  /-- After it was. -/
  | written : Stopped { (host.settled setup desired conditions).disk with
      state := some (diskState desired.generation (host.settled setup desired conditions).active) }

end

/-! ## Lives of a node -/

/-- What the center sends to a node.  It knows each package by one name. -/
structure Sent (setup : Setup) (owner : String → String) (desired : DesiredSet) : Prop where
  policy : ∃ message, desired.policy = SkillPolicy.fromProto message
  distinct : (desired.skills.map (·.name)).Nodup
  owned : ∀ skill ∈ desired.skills, owner skill.sha256 = skill.name
  read : ∀ skill ∈ desired.skills, MarkerRead setup.formats skill

/-- The hosts of a node that began without files, over any reconciles, restarts and stops.
Writing `state.json` does not fail. -/
inductive Life (setup : Setup) (owner : String → String) : Host → Prop where
  | fresh (stamp : String) (writeFails : Option String) (host : Host)
    (opened : openHost setup.formats stamp writeFails .empty = .ok host) : Life setup owner host
  | reconciled (host : Host) (desired : DesiredSet) (attempts : Nat → Nat → Attempt)
    (earlier : Life setup owner host) (sent : Sent setup owner desired) :
    Life setup owner (host.reconcile setup desired ⟨attempts, none⟩).1
  | restarted (stamp : String) (writeFails : Option String) (host host' : Host)
    (earlier : Life setup owner host)
    (opened : openHost setup.formats stamp writeFails host.disk = .ok host') : Life setup owner host'
  | stopped (stamp : String) (writeFails : Option String) (host host' : Host) (desired : DesiredSet)
    (conditions : Conditions) (disk : Disk) (earlier : Life setup owner host)
    (sent : Sent setup owner desired) (something : host.inner.isNoop desired = false)
    (stop : Stopped setup host desired conditions disk)
    (opened : openHost setup.formats stamp writeFails disk = .ok host') : Life setup owner host'

/-! ## What no turn removes -/

/-- Every version that an entry names is a package of its skill. -/
def Owned (owner : String → String) (active : ActiveSkills) : Prop :=
  ∀ name entry, active.lookup name = some entry → ∀ sha256, entry.names sha256 = true →
    owner sha256 = name

/-- The store is sealed, and what skills ran from before verifies in it. -/
structure Runs (formats : Formats) (before : ActiveSkills) (store : SortedMap String Directory) :
    Prop where
  stored : SealedStore formats store
  verifies : ∀ name entry, before.lookup name = some entry →
    verifyActive formats store entry.sha256 = .ok ()

section

variable {attempt : Attempt} {skill : DesiredSkill} {active before : ActiveSkills}
  {owner : String → String} {previous dropped : List String} {store : SortedMap String Directory}

theorem removeDropped_kept {sha256 : String}
    (h : sha256 ∈ dropped → shaReferenced skill active sha256 previous = true) :
    (removeDropped attempt skill active previous dropped store).lookup sha256 =
      store.lookup sha256 := by
  induction dropped generalizing store with
  | nil => rfl
  | cons sha dropped ih =>
    refine (ih fun hmem => h (.tail _ hmem)).trans ?_
    dsimp only
    split
    · rfl
    · next hsha =>
      refine removeStore_other fun heq => hsha ?_
      subst heq
      exact h List.mem_cons_self

theorem Owned.previousOf (howned : Owned owner active) {sha256 : String}
    (h : sha256 ∈ previousOf skill active) : owner sha256 = skill.name := by
  unfold Skills.previousOf at h
  cases hcurrent : active.lookup skill.name with
  | none =>
    rw [hcurrent] at h
    cases h
  | some current =>
    rw [hcurrent] at h
    refine howned _ _ hcurrent sha256 (names_iff.mpr ?_)
    dsimp only at h
    split at h
    · rcases List.mem_cons.mp h with rfl | hprevious
      · exact .inl rfl
      · exact .inr hprevious
    · exact .inr h

/-- The version that a skill runs from is not dropped in its turn, and it is not dropped in the
turns of other skills. -/
theorem running_referenced {keep : Nat} (hkeep : 0 < keep) (howned : Owned owner active)
    (hbefore : Owned owner before)
    (hcurrent : active.lookup skill.name = before.lookup skill.name) {name : String} {entry : ActiveSkill}
    (hentry : before.lookup name = some entry) (hdropped : entry.sha256 ∈ previousOf skill active) :
    shaReferenced skill active entry.sha256 ((previousOf skill active).take keep) = true := by
  have hname : name = skill.name :=
    (hbefore name entry hentry _ (names_iff.mpr (.inl rfl))).symm.trans (howned.previousOf hdropped)
  subst hname
  rw [hentry] at hcurrent
  by_cases hsame : entry.sha256 = skill.sha256
  · rw [shaReferenced, decide_eq_true hsame]
    rfl
  · have hhead : previousOf skill active = entry.sha256 :: entry.previous := by
      rw [previousOf, hcurrent]
      exact if_pos hsame
    obtain ⟨keep, rfl⟩ := Nat.exists_eq_succ_of_ne_zero (Nat.pos_iff_ne_zero.mp hkeep)
    rw [shaReferenced, hhead, List.take_succ_cons, List.contains_cons, beq_self_eq_true,
      Bool.true_or, Bool.or_true, Bool.true_or]

end

section

variable {setup : Setup} {attempt : Attempt} {skill : DesiredSkill} {policy : SkillPolicy}
  {active before : ActiveSkills} {owner : String → String} {store store' : SortedMap String Directory}

theorem Runs.congr {formats : Formats} (h : Runs formats before store)
    (hstored : SealedStore formats store')
    (hsame : ∀ name entry, before.lookup name = some entry →
      store'.lookup entry.sha256 = store.lookup entry.sha256) : Runs formats before store' :=
  ⟨hstored, fun name entry hentry =>
    (verifyActive_congr (hsame name entry hentry)).trans (h.verifies name entry hentry)⟩

theorem Runs.untouched {formats : Formats} (h : Runs formats before store)
    (hstored : SealedStore formats store') (huntouched : Untouched formats store store') :
    Runs formats before store' :=
  h.congr hstored fun name entry hentry =>
    huntouched _ (storeVerified_of_verifyActive (h.verifies name entry hentry))

/-- A skill does not run from a directory that is not verified. -/
theorem Runs.ne {formats : Formats} (h : Runs formats before store) {sha256 : String}
    (hunverified : storeVerified formats store sha256 = false) {name : String} {entry : ActiveSkill}
    (hentry : before.lookup name = some entry) : entry.sha256 ≠ sha256 := by
  rintro rfl
  rw [storeVerified_of_verifyActive (h.verifies name entry hentry)] at hunverified
  cases hunverified

theorem sealed_unstored (h : Unstored setup attempt skill store store')
    (hstored : SealedStore setup.formats store) : SealedStore setup.formats store' := by
  cases h with
  | same hsame => exact hsame ▸ hstored
  | unsealed package bytes err _ hopened hsealed => exact hstored.sealStore hopened hsealed

theorem sealed_stored {limits : LimitsToml} (h : Stored setup attempt skill limits store store')
    (hstored : SealedStore setup.formats store) : SealedStore setup.formats store' := by
  cases h with
  | reused dir _ _ _ _ _ hsame => exact hsame ▸ hstored
  | sealed package bytes _ hopened _ hsealed => exact hstored.sealStore hopened hsealed

/-- What was fetched opens, and there was no verified directory of its hash. -/
theorem Prepared.fetched {disk cached : Disk} {package : Package}
    (h : Prepared setup attempt skill policy disk (some package) cached) :
    cached.store = disk.store ∧ cached.state = disk.state ∧
      storeVerified setup.formats disk.store skill.sha256 = false ∧
      ∃ bytes, openPackage setup.formats bytes skill.name skill.version = .ok package := by
  obtain ⟨fetched, wasm, limits, hobtain, -, hcache⟩ := h.compiled
  have hcached := @ensureCache_store setup attempt skill wasm fetched
  rw [hcache] at hcached
  obtain ⟨hstore, hstate, ⟨-, hnone⟩ | ⟨hunverified, ⟨err, herr⟩ | ⟨bytes, opened, hsome, hopened⟩⟩⟩ :=
    obtainPackage_cases hobtain
  · cases hnone
  · cases herr
  · cases hsome
    exact ⟨hcached.1.trans hstore, hcached.2.trans hstate, hunverified, bytes, hopened⟩

/-- An attempt that comes to dropping versions has the package in the store. -/
theorem Prepared.runs {disk cached mid : Disk} {package : Option Package}
    (h : Prepared setup attempt skill policy disk package cached)
    (hsealed : sealPackage setup attempt skill package cached = (.ok (), mid))
    (hruns : Runs setup.formats before disk.store) : Runs setup.formats before mid.store := by
  cases package with
  | none =>
    obtain ⟨fetched, wasm, limits, hobtain, -, hcache⟩ := h.compiled
    have hcached := @ensureCache_store setup attempt skill wasm fetched
    rw [hcache] at hcached
    cases hsealed
    rw [hcached.1, (obtainPackage_cases hobtain).1]
    exact hruns
  | some package =>
    obtain ⟨hstore, -, hunverified, bytes, hopened⟩ := h.fetched
    rw [sealPackage] at hsealed
    cases hseal : sealStore setup.formats attempt skill package cached.store with
    | mk result store =>
      rw [hseal] at hsealed
      cases hsealed
      rw [hstore] at hseal
      exact hruns.congr (hruns.stored.sealStore hopened hseal) fun name entry hentry =>
        sealStore_other hseal (hruns.ne hunverified hentry)

/-! ## A turn -/

section

variable {before : ActiveSkills} (hkeep : 0 < policy.keepPreviousVersions) (howned : Owned owner active)
  (hbefore : Owned owner before) (hcurrent : active.lookup skill.name = before.lookup skill.name)
include hkeep howned hbefore hcurrent

/-- Dropping versions spares what skills ran from before. -/
theorem Runs.removeDropped {dropped : List String} (h : Runs setup.formats before store)
    (hdropped : dropped ⊆ (previousOf skill active).drop policy.keepPreviousVersions) :
    Runs setup.formats before (removeDropped attempt skill active
      ((previousOf skill active).take policy.keepPreviousVersions) dropped store) :=
  h.congr h.stored.removeDropped fun _ _ hentry => removeDropped_kept fun hmem =>
    running_referenced hkeep howned hbefore hcurrent hentry (List.mem_of_mem_drop (hdropped hmem))

theorem halted_runs {disk : Disk} (h : Halted setup attempt skill policy active disk store)
    (hruns : Runs setup.formats before disk.store) : Runs setup.formats before store := by
  cases h with
  | untouched => exact hruns
  | clearing package cached left hprepared =>
    obtain ⟨hstore, -, hunverified, -⟩ := hprepared.fetched
    rw [hstore]
    exact hruns.congr (hruns.stored.removeStore _ _) fun name entry hentry =>
      removeStore_other (hruns.ne hunverified hentry)
  | renamed package cached store hprepared hrenamed =>
    obtain ⟨hstore, -, hunverified, bytes, hopened⟩ := hprepared.fetched
    rw [hrenamed.placed, hstore]
    refine hruns.congr ((hruns.stored.removeStore _ _).insert (sealedFiles_sealed hopened skill)) ?_
    intro name entry hentry
    rw [SortedMap.lookup_insert, if_neg (hruns.ne hunverified hentry),
      removeStore_other (hruns.ne hunverified hentry)]
  | unsealing package cached store left err hprepared hrenamed _ =>
    obtain ⟨hstore, -, hunverified, bytes, hopened⟩ := hprepared.fetched
    rw [hrenamed.placed, hstore]
    refine hruns.congr
      (((hruns.stored.removeStore _ _).insert (sealedFiles_sealed hopened skill)).removeStore _ _) ?_
    intro name entry hentry
    rw [removeStore_other (hruns.ne hunverified hentry), SortedMap.lookup_insert,
      if_neg (hruns.ne hunverified hentry), removeStore_other (hruns.ne hunverified hentry)]
  | dropping package cached mid seen rest sha256 left hprepared hsealed hdropped hunreferenced =>
    rw [trimPrevious, List.splitAt_eq] at hdropped hunreferenced ⊢
    dsimp only at hdropped hunreferenced ⊢
    have hseen : seen ⊆ (previousOf skill active).drop policy.keepPreviousVersions := by
      rw [hdropped]
      exact List.subset_append_left _ _
    have hsha : sha256 ∈ (previousOf skill active).drop policy.keepPreviousVersions := by
      rw [hdropped]
      exact List.mem_append_right _ List.mem_cons_self
    have hmid : Runs setup.formats before (removeDropped attempt skill active
        ((previousOf skill active).take policy.keepPreviousVersions) seen _) :=
      (hprepared.runs hsealed hruns).removeDropped hkeep howned hbefore hcurrent hseen
    refine hmid.congr (hmid.stored.removeStore _ _) fun name entry hentry => ?_
    refine removeStore_other ?_
    rintro rfl
    rw [running_referenced hkeep howned hbefore hcurrent hentry (List.mem_of_mem_drop hsha)]
      at hunreferenced
    cases hunreferenced

theorem turn_runs {env : Nat → Attempt} {progress : Progress} (hactive : progress.active = active)
    (hruns : Runs setup.formats before progress.disk.store) :
    Runs setup.formats before (progress.turn setup policy env skill).disk.store := by
  subst hactive
  rcases @turn_stores setup policy env skill (fun disk => Runs setup.formats before disk.store) progress
    (fun i disk disk' h _ hunstored => h.untouched (sealed_unstored hunstored h.stored)
      (untouched_unstored (fun _ _ => rfl) hunstored)) hruns with
    ⟨-, -, hkept⟩ | ⟨-, i, disk, limits, mid, hkept, -, hstored, -, heq⟩
  · exact hkept
  · rw [heq, activate_store, activate_previous]
    have hmid : Runs setup.formats before mid.store := hkept.untouched
      (sealed_stored hstored hkept.stored) (untouched_stored (fun _ _ => rfl) hstored)
    exact hmid.removeDropped hkeep howned hbefore hcurrent (List.Subset.refl _)

end

theorem turn_owned {env : Nat → Attempt} {progress : Progress} (hsha : owner skill.sha256 = skill.name)
    (howned : Owned owner progress.active) :
    Owned owner (progress.turn setup policy env skill).active := by
  rcases @turn_stores setup policy env skill (fun _ => True) progress (fun _ _ _ _ _ _ => trivial)
    trivial with ⟨-, hactive, -⟩ | ⟨-, i, disk, limits, mid, -, -, -, hactive, -⟩
  · exact hactive ▸ howned
  · rw [hactive]
    intro name entry hentry sha256 hnames
    rw [SortedMap.lookup_insert] at hentry
    split at hentry
    · next heq =>
      cases hentry
      subst heq
      rcases names_iff.mp hnames with rfl | hprevious
      · exact hsha
      · rw [activate_previous] at hprevious
        exact howned.previousOf (List.mem_of_mem_take hprevious)
    · exact howned name entry hentry sha256 hnames

theorem Tried.state {env : Nat → Attempt} {disk tried : Disk} {made : Nat}
    (h : Tried setup skill policy active env disk made tried) : tried.state = disk.state := by
  induction h with
  | start => rfl
  | again made disk' after err _ hfailed _ ih =>
    rcases tryInstall_cases hfailed with ⟨-, hafter, -⟩ | ⟨_, _, -, -, hok, -⟩
    · exact hafter.trans ih
    · cases hok

/-- Attempts that failed leave what skills run from. -/
theorem Tried.runs {env : Nat → Attempt} {disk tried : Disk} {made : Nat}
    (h : Tried setup skill policy active env disk made tried)
    (hruns : Runs setup.formats before disk.store) : Runs setup.formats before tried.store := by
  induction h with
  | start => exact hruns
  | again made disk' after err _ hfailed _ ih =>
    rcases tryInstall_cases hfailed with ⟨-, -, hunstored⟩ | ⟨_, _, -, -, hok, -⟩
    · exact ih.untouched (sealed_unstored hunstored ih.stored)
        (untouched_unstored (fun _ _ => rfl) hunstored)
    · cases hok

end

/-! ## A reconcile -/

section

variable {setup : Setup} {owner : String → String} {host : Host} {desired : DesiredSet}
  {conditions : Conditions}

theorem retained_owned {active : ActiveSkills} (howned : Owned owner active)
    (skills : List DesiredSkill) : Owned owner (retained active skills) := by
  intro name entry hentry
  rw [lookup_retained] at hentry
  split at hentry
  · exact howned name entry hentry
  · cases hentry

/-- What the first turns of a reconcile leave. -/
structure Standing (formats : Formats) (owner : String → String) (host : Host) (progress : Progress) :
    Prop where
  runs : Runs formats host.inner.skills progress.disk.store
  owned : Owned owner progress.active
  state : progress.disk.state = host.disk.state

theorem after_current {seen rest : List DesiredSkill} {skill : DesiredSkill}
    (hdistinct : (desired.skills.map (·.name)).Nodup) (hskills : desired.skills = seen ++ skill :: rest) :
    (host.after setup desired conditions seen).active.lookup skill.name =
      host.inner.skills.lookup skill.name := by
  have hfresh : skill.name ∉ seen.map (·.name) := by
    rw [hskills, List.map_append, List.map_cons] at hdistinct
    exact fun hmem => (List.nodup_append.mp hdistinct).2.2 _ hmem _ List.mem_cons_self rfl
  have hmem : skill.name ∈ desired.skills.map (·.name) := by
    rw [hskills]
    exact List.mem_map_of_mem (List.mem_append_right _ List.mem_cons_self)
  rw [Host.after, turns_other hfresh, Host.begin, lookup_retained, if_pos hmem]

theorem turns_concat {policy : SkillPolicy} (seen : List DesiredSkill) (skill : DesiredSkill)
    (env : Nat → Nat → Attempt) (progress : Progress) :
    progress.turns setup policy (seen ++ [skill]) env =
      (progress.turns setup policy seen env).turn setup policy (env seen.length) skill := by
  induction seen generalizing env progress with
  | nil => rfl
  | cons first seen ih =>
    rw [List.cons_append, Progress.turns, ih, Progress.turns]
    rfl

theorem after_standing (hsent : Sent setup owner desired)
    (hsound : Sound setup.formats host.disk.store host.inner.skills)
    (howned : Owned owner host.inner.skills) {seen rest : List DesiredSkill}
    (hskills : desired.skills = seen ++ rest) :
    Standing setup.formats owner host (host.after setup desired conditions seen) := by
  obtain ⟨message, hpolicy⟩ := hsent.policy
  have hkeep : 0 < desired.policy.keepPreviousVersions := hpolicy ▸ fromProto_keeps message
  induction seen using List.reverseRecOn generalizing rest with
  | nil => exact ⟨⟨hsound.stored, hsound.verifies⟩, retained_owned howned _, rfl⟩
  | append_singleton seen skill ih =>
    rw [List.append_assoc, List.singleton_append] at hskills
    have hstanding := ih hskills
    have hmem : skill ∈ desired.skills := hskills ▸ List.mem_append_right _ List.mem_cons_self
    rw [Host.after, turns_concat, ← Host.after]
    refine ⟨?_, turn_owned (hsent.owned skill hmem) hstanding.owned, ?_⟩
    · exact turn_runs hkeep hstanding.owned howned (after_current hsent.distinct hskills) rfl hstanding.runs
    · rcases @turn_stores setup desired.policy (conditions.attempts seen.length) skill
        (fun disk => disk.state = host.disk.state) (host.after setup desired conditions seen)
        (fun i disk disk' h hstate _ => hstate.trans h) hstanding.state with
        ⟨-, -, hdisk⟩ | ⟨-, i, disk, limits, mid, hdisk, hmid, -, -, heq⟩
      · exact hdisk
      · rw [heq]
        exact hmid.trans hdisk

/-- The skills of the files of a process that stopped: those from before the reconcile, or those
that it came to. -/
theorem stopped_runs (hsent : Sent setup owner desired)
    (hsound : Sound setup.formats host.disk.store host.inner.skills)
    (howned : Owned owner host.inner.skills) {disk : Disk}
    (h : Stopped setup host desired conditions disk) :
    (disk.state = host.disk.state ∧ Runs setup.formats host.inner.skills disk.store) ∨
      disk.state = some (diskState desired.generation (host.settled setup desired conditions).active) ∧
        Runs setup.formats (host.settled setup desired conditions).active disk.store := by
  obtain ⟨message, hpolicy⟩ := hsent.policy
  have hkeep : 0 < desired.policy.keepPreviousVersions := hpolicy ▸ fromProto_keeps message
  cases h with
  | turn seen rest skill made tried store cache downloads hskills hattempts hhalted =>
    have hstanding := @after_standing setup owner host desired conditions hsent hsound howned seen
      (skill :: rest) hskills
    exact .inl ⟨hattempts.state.trans hstanding.state, halted_runs hkeep hstanding.owned howned
      (after_current hsent.distinct hskills) hhalted (hattempts.runs hstanding.runs)⟩
  | settled =>
    have hstanding := @after_standing setup owner host desired conditions hsent hsound howned
      desired.skills [] (List.append_nil _).symm
    exact .inl ⟨hstanding.state, hstanding.runs⟩
  | written =>
    have hturns := @turns_sound setup desired.policy desired.skills conditions.attempts
      (host.begin desired) hsent.read (begin_sound desired hsound)
    exact .inr ⟨rfl, hturns.stored, hturns.verifies⟩

end

/-! ## Lives -/

/-- What `state.json` would hold of a host. -/
def Inner.saved (inner : Inner) : DiskState := diskState inner.generation inner.skills

/-- What holds of a host over its life. -/
structure Safe (formats : Formats) (owner : String → String) (host : Host) : Prop where
  sound : Sound formats host.disk.store host.inner.skills
  owned : Owned owner host.inner.skills
  saved : host.disk.stated = host.inner.saved

/-- Files from which a host starts with these skills. -/
structure Startable (formats : Formats) (owner : String → String) (disk : Disk) (generation : Int)
    (active : ActiveSkills) : Prop where
  stated : disk.stated = diskState generation active
  runs : Runs formats active disk.store
  owned : Owned owner active

section

variable {setup : Setup} {formats : Formats} {owner : String → String} {stamp : String}
  {writeFails : Option String} {disk : Disk} {generation : Int} {active : ActiveSkills} {host : Host}

theorem Startable.intact (h : Startable formats owner disk generation active) :
    disk.Intact formats := by
  intro name skill hskill
  rw [h.stated, diskState, SortedMap.lookup_map] at hskill
  obtain ⟨entry, hentry, rfl⟩ := Option.map_eq_some_iff.mp hskill
  exact h.runs.verifies name entry hentry

theorem saved_opened (disk : DiskState) :
    diskState disk.generation (disk.skills.map fun _ skill => openedSkill skill) = disk := by
  have hskills : (disk.skills.map fun _ skill => openedSkill skill).map
      (fun _ skill => (⟨skill.sha256, skill.version, skill.previous⟩ : DiskSkill)) = disk.skills := by
    refine SortedMap.ext_lookup fun name => ?_
    rw [SortedMap.lookup_map, SortedMap.lookup_map, Option.map_map]
    exact Option.map_id'
  rw [diskState, hskills]

/-- A start from such files finds all of them in order. -/
theorem Startable.opens (h : Startable formats owner disk generation active) :
    ∃ host, openHost formats stamp writeFails disk = .ok host ∧ host.disk = disk ∧
      host.inner.bootFailures = [] ∧ host.inner.saved = diskState generation active ∧
      Safe formats owner host := by
  have hsaved : diskState disk.stated.generation
      (disk.stated.skills.map fun _ skill => openedSkill skill) = disk.stated := saved_opened _
  refine ⟨_, openHost_intact h.intact, rfl, rfl, hsaved.trans h.stated, ⟨h.runs.stored, ?_⟩, ?_,
    hsaved.symm⟩
  · intro name entry hentry
    rw [SortedMap.lookup_map] at hentry
    obtain ⟨skill, hskill, rfl⟩ := Option.map_eq_some_iff.mp hentry
    exact h.intact name skill hskill
  · intro name entry hentry sha256 hnames
    rw [h.stated, diskState, SortedMap.lookup_map, SortedMap.lookup_map] at hentry
    cases hlookup : active.lookup name with
    | none =>
      rw [hlookup] at hentry
      cases hentry
    | some found =>
      rw [hlookup] at hentry
      cases hentry
      exact h.owned name found hlookup sha256 hnames

theorem Startable.safe (h : Startable formats owner disk generation active)
    (hopened : openHost formats stamp writeFails disk = .ok host) : Safe formats owner host := by
  obtain ⟨found, hfound, -, -, -, hsafe⟩ :
      ∃ host, openHost formats stamp writeFails disk = .ok host ∧ _ := h.opens
  cases hfound.symm.trans hopened
  exact hsafe

theorem Safe.startable (h : Safe formats owner host) :
    Startable formats owner host.disk host.inner.generation host.inner.skills :=
  ⟨h.saved, ⟨h.sound.stored, h.sound.verifies⟩, h.owned⟩

section

variable {desired : DesiredSet} {conditions : Conditions}

theorem Safe.settled_owned (h : Safe setup.formats owner host) (hsent : Sent setup owner desired) :
    Owned owner (host.settled setup desired conditions).active :=
  (@after_standing setup owner host desired conditions hsent h.sound h.owned desired.skills []
    (List.append_nil _).symm).owned

/-- A process that stops in a reconcile leaves files to start from. -/
theorem Safe.stopped (h : Safe setup.formats owner host) (hsent : Sent setup owner desired)
    (hstop : Stopped setup host desired conditions disk) :
    Startable setup.formats owner disk host.inner.generation host.inner.skills ∨
      Startable setup.formats owner disk desired.generation
        (host.settled setup desired conditions).active := by
  rcases stopped_runs hsent h.sound h.owned hstop with ⟨hstate, hruns⟩ | ⟨hstate, hruns⟩
  · refine .inl ⟨?_, hruns, h.owned⟩
    rw [Disk.stated, hstate, ← Disk.stated]
    exact h.saved
  · refine .inr ⟨?_, hruns, h.settled_owned hsent⟩
    rw [Disk.stated, hstate]
    rfl

theorem Safe.reconcile (h : Safe setup.formats owner host) (hsent : Sent setup owner desired)
    (hwritten : conditions.writeFails = none) :
    Safe setup.formats owner (host.reconcile setup desired conditions).1 := by
  cases hnoop : host.inner.isNoop desired with
  | true => rwa [reconcile_of_noop hnoop]
  | false =>
    refine ⟨reconcile_sound hsent.read h.sound, ?_, ?_⟩
    · rw [(reconcile_of_not_noop hnoop).1]
      exact h.settled_owned hsent
    · rw [reconcile_disk hnoop, hwritten, (reconcile_of_not_noop hnoop).1]
      rfl

end

theorem Life.safe (h : Life setup owner host) : Safe setup.formats owner host := by
  induction h with
  | fresh stamp writeFails host hopened =>
    have hempty : Startable setup.formats owner .empty 0 .empty := by
      refine ⟨rfl, ⟨fun _ _ hdir => ?_, fun _ _ hentry => ?_⟩, fun _ _ hentry => ?_⟩
      · cases hdir
      · cases hentry
      · cases hentry
    exact hempty.safe hopened
  | reconciled host desired attempts _ hsent ih => exact ih.reconcile hsent rfl
  | restarted stamp writeFails host host' _ hopened ih => exact ih.startable.safe hopened
  | stopped stamp writeFails host host' desired conditions disk _ hsent _ hstop hopened ih =>
    rcases ih.stopped hsent hstop with hbefore | hafter
    · exact hbefore.safe hopened
    · exact hafter.safe hopened

/-- A start after a stop in a reconcile gives the skills and the generation from before it, or
those that it came to.  All of them verify, and nothing is put aside. -/
theorem stopped_atomic {desired : DesiredSet} {conditions : Conditions} (hlife : Life setup owner host)
    (hsent : Sent setup owner desired) (hsomething : host.inner.isNoop desired = false)
    (hstop : Stopped setup host desired conditions disk) (stamp : String) (writeFails : Option String) :
    ∃ host', openHost setup.formats stamp writeFails disk = .ok host' ∧ host'.disk = disk ∧
      host'.inner.bootFailures = [] ∧
      (host'.inner.saved = host.inner.saved ∨
        host'.inner.saved = (host.reconcile setup desired conditions).1.inner.saved) ∧
      ∀ name entry, host'.inner.skills.lookup name = some entry →
        verifyActive setup.formats host'.disk.store entry.sha256 = .ok () := by
  rw [(reconcile_of_not_noop hsomething).1]
  rcases hlife.safe.stopped hsent hstop with hbefore | hafter
  · obtain ⟨host', hopened, hdisk, hfailures, hsaved, hsafe⟩ := hbefore.opens
    exact ⟨host', hopened, hdisk, hfailures, .inl hsaved, hsafe.sound.verifies⟩
  · obtain ⟨host', hopened, hdisk, hfailures, hsaved, hsafe⟩ := hafter.opens
    exact ⟨host', hopened, hdisk, hfailures, .inr hsaved, hsafe.sound.verifies⟩

end

/-! ## A stop -/

/-- A host that has installed `uptime`. -/
def servedHost : Host := (freshHost.reconcile uptimeSetup (desiredOne 1 [uptimeSkill]) serving).1

theorem servedHost_life : Life uptimeSetup (fun _ => "uptime") servedHost := by
  refine .reconciled freshHost (desiredOne 1 [uptimeSkill]) serving.attempts (.fresh "0" none _ rfl) ?_
  refine ⟨⟨none, rfl⟩, List.nodup_singleton _, fun skill hskill => ?_, fun skill hskill => ?_⟩
  · cases List.mem_singleton.mp hskill
    rfl
  · cases List.mem_singleton.mp hskill
    rfl

theorem servedHost_newer : servedHost.inner.isNoop (desiredOne 2 []) = false := by
  refine isNoop_of_newer ?_
  rw [servedHost, (reconcile_of_not_noop rfl).1]
  exact Int.lt_succ 1

theorem servedHost_idle : Sent uptimeSetup (fun _ => "uptime") (desiredOne 2 []) := by
  refine ⟨⟨none, rfl⟩, List.nodup_nil, fun _ hskill => ?_, fun _ hskill => ?_⟩
  · cases hskill
  · cases hskill

/-- The skill is not desired any more, and the process stops before `state.json` is replaced. -/
theorem stopped_atomic_uninstalling :
    ∃ host', openHost uptimeSetup.formats "1" none
        (servedHost.settled uptimeSetup (desiredOne 2 []) serving).disk = .ok host' ∧
      host'.disk = (servedHost.settled uptimeSetup (desiredOne 2 []) serving).disk ∧
      host'.inner.bootFailures = [] ∧
      (host'.inner.saved = servedHost.inner.saved ∨
        host'.inner.saved =
          (servedHost.reconcile uptimeSetup (desiredOne 2 []) serving).1.inner.saved) ∧
      ∀ name entry, host'.inner.skills.lookup name = some entry →
        verifyActive uptimeSetup.formats host'.disk.store entry.sha256 = .ok () :=
  stopped_atomic servedHost_life servedHost_idle servedHost_newer .settled "1" none

end Novbot.Skills
