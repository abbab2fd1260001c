import Novbot.Skills.Host
import Novbot.Skills.Uploads

/-!
# What a reconcile settles

After a reconcile the active skills are among the desired ones.  Each desired skill is
active at its hash and reported installed, or it is reported failed and what was active
before stays.
-/

namespace Novbot.Skills

open Novbot.Package Text

/-! ## One attempt -/

section

variable {setup : Setup} {attempt : Attempt} {skill : DesiredSkill} {policy : SkillPolicy}
  {active : ActiveSkills}

theorem ensureCache_store (wasm : Bytes) (disk : Disk) :
    (ensureCache setup attempt skill wasm disk).2.store = disk.store ∧
      (ensureCache setup attempt skill wasm disk).2.state = disk.state := by
  unfold ensureCache
  dsimp only
  split
  · exact ⟨rfl, rfl⟩
  · split
    · exact ⟨rfl, rfl⟩
    · split <;> exact ⟨rfl, rfl⟩

/-- The package is in the store, or it was fetched and checked. -/
theorem obtainPackage_cases {disk disk' : Disk} {result : Except InstallError (Option Package)}
    (h : obtainPackage setup attempt skill disk = (result, disk')) :
    disk'.store = disk.store ∧ disk'.state = disk.state ∧
      ((storeVerified setup.formats disk.store skill.sha256 = true ∧ result = .ok none) ∨
        storeVerified setup.formats disk.store skill.sha256 = false ∧
          ((∃ err, result = .error err) ∨ ∃ bytes package, result = .ok (some package) ∧
            openPackage setup.formats bytes skill.name skill.version = .ok package)) := by
  unfold obtainPackage at h
  split at h
  · next hverified =>
    cases h
    exact ⟨rfl, rfl, .inl ⟨hverified, rfl⟩⟩
  · next hverified =>
    rw [Bool.not_eq_true] at hverified
    dsimp only at h
    split at h
    · next err _ =>
      cases h
      exact ⟨rfl, rfl, .inr ⟨hverified, .inl ⟨err, rfl⟩⟩⟩
    · next bytes _ =>
      cases h
      refine ⟨rfl, rfl, .inr ⟨hverified, ?_⟩⟩
      cases hcheck : checkFetched setup skill bytes with
      | error err => exact .inl ⟨err, rfl⟩
      | ok package =>
        unfold checkFetched at hcheck
        simp only [Check.bind_eq_ok, Check.throw_bind, Check.ite_throw_eq_ok, Check.pure_eq_ok] at hcheck
        obtain ⟨opened, hopen, -, rfl⟩ := hcheck
        exact .inr ⟨bytes, opened, rfl, hopen⟩

/-- The package is in the store when an attempt comes to its end, and has these limits. -/
inductive Stored (setup : Setup) (attempt : Attempt) (skill : DesiredSkill) (limits : LimitsToml)
    (store store' : SortedMap String Directory) : Prop
  /-- It was there. -/
  | reused (dir : Directory) (verified : storeVerified setup.formats store skill.sha256 = true)
      (found : store.lookup skill.sha256 = some dir) (wasm : (dir.lookup "module.wasm").isSome = true)
      (toml : (readText dir "skill.toml").isSome = true)
      (read : readStoredManifest setup.formats attempt dir = .ok limits) (same : store' = store)
  /-- It was fetched and sealed. -/
  | sealed (package : Package) (bytes : Bytes)
      (verified : storeVerified setup.formats store skill.sha256 = false)
      (opened : openPackage setup.formats bytes skill.name skill.version = .ok package)
      (read : limits = ⟨package.manifest.timeoutMs, package.manifest.memoryMb⟩)
      (stored : sealStore setup.formats attempt skill package store = (.ok (), store'))

/-- What a failed attempt leaves of the store. -/
inductive Unstored (setup : Setup) (attempt : Attempt) (skill : DesiredSkill)
    (store store' : SortedMap String Directory) : Prop
  | same (same : store' = store)
  /-- Sealing failed. -/
  | unsealed (package : Package) (bytes : Bytes) (err : InstallError)
      (verified : storeVerified setup.formats store skill.sha256 = false)
      (opened : openPackage setup.formats bytes skill.name skill.version = .ok package)
      (stored : sealStore setup.formats attempt skill package store = (.error err, store'))

theorem readPackage_stored {store : SortedMap String Directory} {found : Bytes × LimitsToml}
    (h : readPackage setup attempt skill store none = .ok found)
    (hverified : storeVerified setup.formats store skill.sha256 = true) :
    Stored setup attempt skill found.2 store store := by
  obtain ⟨dir, hdir, -⟩ := (storeVerified_iff _).mp hverified
  unfold readPackage at h
  rw [hdir] at h
  simp only [Option.getD_some, Check.bind_eq_ok] at h
  obtain ⟨wasm, hwasm, limits, hlimits, hfound⟩ := h
  cases hfound
  have hmodule : (dir.lookup "module.wasm").isSome = true := by
    unfold readModule at hwasm
    split at hwasm
    · next hfound =>
      rw [hfound]
      rfl
    · cases hwasm
    · cases hwasm
  have htoml : (readText dir "skill.toml").isSome = true := by
    unfold readStoredManifest at hlimits
    split at hlimits
    · next htext =>
      rw [htext]
      rfl
    · cases hlimits
    · cases hlimits
  exact .reused dir hverified hdir hmodule htoml hlimits rfl

theorem readPackage_fetched {store : SortedMap String Directory} {package : Package}
    {found : Bytes × LimitsToml} (h : readPackage setup attempt skill store (some package) = .ok found) :
    found.2 = ⟨package.manifest.timeoutMs, package.manifest.memoryMb⟩ := by
  simp only [readPackage] at h
  split at h
  · cases h
    rfl
  · cases h

/-- What an attempt comes to. -/
theorem tryInstall_cases {disk disk' : Disk} {result : Except InstallError ActiveSkill}
    (h : tryInstall setup attempt skill policy active disk = (result, disk')) :
    ((∃ err, result = .error err) ∧ disk'.state = disk.state ∧
        Unstored setup attempt skill disk.store disk'.store) ∨
      ∃ limits mid, mid.state = disk.state ∧ Stored setup attempt skill limits disk.store mid.store ∧
        result = .ok (activate attempt skill policy active limits mid).1 ∧
        disk' = (activate attempt skill policy active limits mid).2 := by
  unfold tryInstall at h
  split at h
  · cases h
    exact .inl ⟨⟨_, rfl⟩, rfl, .same rfl⟩
  · split at h
    · cases h
      exact .inl ⟨⟨_, rfl⟩, rfl, .same rfl⟩
    · split at h
      · next fetched hobtain =>
        obtain ⟨hstore, hstate, -⟩ := obtainPackage_cases hobtain
        cases h
        exact .inl ⟨⟨_, rfl⟩, hstate, .same hstore⟩
      · next package fetched hobtain =>
        obtain ⟨hstore, hstate, hpackage⟩ := obtainPackage_cases hobtain
        split at h
        · cases h
          exact .inl ⟨⟨_, rfl⟩, hstate, .same hstore⟩
        · next wasm limits hread =>
          have hcache := @ensureCache_store setup attempt skill wasm fetched
          split at h
          · next cached heq =>
            rw [heq] at hcache
            cases h
            exact .inl ⟨⟨_, rfl⟩, hcache.2.trans hstate, .same (hcache.1.trans hstore)⟩
          · next cached heq =>
            rw [heq] at hcache
            rcases hpackage with ⟨hverified, hnone⟩ | ⟨hverified, ⟨err, herr⟩ | ⟨bytes, opened, hsome, hopen⟩⟩
            · cases hnone
              rw [sealPackage] at h
              cases h
              rw [hstore] at hread
              refine .inr ⟨limits, cached, hcache.2.trans hstate, ?_, rfl, rfl⟩
              rw [hcache.1, hstore]
              exact readPackage_stored hread hverified
            · cases herr
            · cases hsome
              rw [sealPackage, hcache.1, hstore] at h
              cases hseal : sealStore setup.formats attempt skill opened disk.store with
              | mk sealed store =>
                rw [hseal] at h
                cases sealed with
                | error err =>
                  cases h
                  exact .inl ⟨⟨_, rfl⟩, hcache.2.trans hstate, .unsealed opened bytes err hverified hopen hseal⟩
                | ok _ =>
                  cases h
                  exact .inr ⟨limits, { cached with store }, hcache.2.trans hstate,
                    .sealed opened bytes hverified hopen (readPackage_fetched hread) hseal, rfl, rfl⟩

/-- An entry is for the desired version. -/
theorem tryInstall_entry {disk disk' : Disk} {installed : ActiveSkill}
    (h : tryInstall setup attempt skill policy active disk = (.ok installed, disk')) :
    installed.sha256 = skill.sha256 := by
  rcases tryInstall_cases h with ⟨⟨err, herr⟩, -⟩ | ⟨limits, mid, -, -, hok, -⟩
  · cases herr
  · cases hok
    rfl

end

/-! ## One turn -/

section

variable {setup : Setup} {policy : SkillPolicy} {env : Nat → Attempt} {active : ActiveSkills}
  {skill : DesiredSkill}

/-- What an outcome of a turn is made of, when failed attempts keep `kept`. -/
def Outcome.Keeps (setup : Setup) (policy : SkillPolicy) (env : Nat → Attempt) (active : ActiveSkills)
    (skill : DesiredSkill) (kept : Disk → Prop) (outcome : Outcome) : Prop :=
  match outcome.result with
  | .error _ => kept outcome.disk
  | .ok (installed, _) => ∃ i disk, kept disk ∧
    tryInstall setup (env i) skill policy active disk = (.ok installed, outcome.disk)

theorem installLoop_keeps {kept : Disk → Prop}
    (hstep : ∀ i disk err disk', kept disk →
      tryInstall setup (env i) skill policy active disk = (.error err, disk') → kept disk')
    {remaining attempts elapsed : Nat} {last : InstallError} {disk : Disk} (hdisk : kept disk) :
    (installLoop setup policy env active skill remaining attempts last disk elapsed).Keeps
      setup policy env active skill kept := by
  induction remaining generalizing attempts elapsed last disk with
  | zero =>
    unfold installLoop
    split
    · exact hdisk
    · exact hdisk
  | succ remaining ih =>
    unfold installLoop
    split
    · exact hdisk
    · dsimp only
      split
      · next installed disk' htried => exact ⟨attempts, disk, hdisk, htried⟩
      · next err disk' htried =>
        have hdisk' := hstep attempts disk err disk' hdisk htried
        split
        · exact hdisk'
        · split
          · exact hdisk'
          · split
            · exact hdisk'
            · exact ih hdisk'

theorem outcome_keeps {kept : Disk → Prop} {progress : Progress}
    (hstep : ∀ i disk err disk', kept disk →
      tryInstall setup (env i) skill policy progress.active disk = (.error err, disk') → kept disk')
    (hdisk : kept progress.disk) :
    (progress.outcome setup policy env skill).Keeps setup policy env progress.active skill kept :=
  installLoop_keeps hstep hdisk

/-- The report and the active skills after a turn. -/
theorem turn_cases (progress : Progress) :
    (∃ installed attempts, installed.sha256 = skill.sha256 ∧
        (progress.turn setup policy env skill).active = progress.active.insert skill.name installed ∧
        (progress.turn setup policy env skill).reports =
          progress.reports ++ [installedReport skill installed attempts]) ∨
      ∃ err attempts, (progress.turn setup policy env skill).active = progress.active ∧
        (progress.turn setup policy env skill).reports = progress.reports ++
          [failedReport skill (progress.active.lookup skill.name) err attempts] := by
  have hkeeps : (progress.outcome setup policy env skill).Keeps setup policy env progress.active skill
      fun _ => True := outcome_keeps (fun _ _ _ _ _ _ => trivial) trivial
  unfold Outcome.Keeps at hkeeps
  unfold Progress.turn
  dsimp only
  split at hkeeps
  · next failure hresult =>
    rw [hresult]
    exact .inr ⟨failure.1, failure.2, rfl, rfl⟩
  · next installed attempts hresult =>
    obtain ⟨i, disk, -, htried⟩ := hkeeps
    rw [hresult]
    exact .inl ⟨installed, attempts, tryInstall_entry htried, rfl, rfl⟩

/-- What a turn comes to in the store, when failed attempts keep `kept`. -/
theorem turn_stores {kept : Disk → Prop} {progress : Progress}
    (hstep : ∀ i disk disk', kept disk → disk'.state = disk.state →
      Unstored setup (env i) skill disk.store disk'.store → kept disk')
    (hdisk : kept progress.disk) :
    ((progress.outcome setup policy env skill).result.isOk = false ∧
        (progress.turn setup policy env skill).active = progress.active ∧
        kept (progress.turn setup policy env skill).disk) ∨
      (progress.outcome setup policy env skill).result.isOk = true ∧
      ∃ i disk limits mid, kept disk ∧ mid.state = disk.state ∧
        Stored setup (env i) skill limits disk.store mid.store ∧
        (progress.turn setup policy env skill).active = progress.active.insert skill.name
          (activate (env i) skill policy progress.active limits mid).1 ∧
        (progress.turn setup policy env skill).disk =
          (activate (env i) skill policy progress.active limits mid).2 := by
  have hkeeps : (progress.outcome setup policy env skill).Keeps setup policy env progress.active skill
      kept := by
    refine outcome_keeps (fun i disk err disk' hkept htried => ?_) hdisk
    rcases tryInstall_cases htried with ⟨-, hstate, hunstored⟩ | ⟨limits, mid, -, -, hok, -⟩
    · exact hstep i disk disk' hkept hstate hunstored
    · cases hok
  unfold Outcome.Keeps at hkeeps
  unfold Progress.turn
  dsimp only
  split at hkeeps
  · next failure hresult =>
    rw [hresult]
    exact .inl ⟨rfl, rfl, hkeeps⟩
  · next installed attempts hresult =>
    obtain ⟨i, disk, hkept, htried⟩ := hkeeps
    rw [hresult]
    rcases tryInstall_cases htried with ⟨⟨err, herr⟩, -⟩ | ⟨limits, mid, hstate, hstored, hok, heq⟩
    · cases herr
    · cases hok
      exact .inr ⟨rfl, i, disk, limits, mid, hkept, hstate, hstored, rfl, heq⟩

end

/-! ## All turns -/

/-- What is settled for a desired skill: it is active as desired and reported installed,
or reported failed with an error and active as before. -/
def SkillSettled (before after : ActiveSkills) (reports : List ReportedSkill)
    (skill : DesiredSkill) : Prop :=
  ∃ report ∈ reports, report.name = skill.name ∧ report.sha256 = skill.sha256 ∧
    ((report.state = .installed ∧
        ∃ entry, after.lookup skill.name = some entry ∧ entry.sha256 = skill.sha256) ∨
      report.state = .failed ∧ report.reason.isSome = true ∧
        after.lookup skill.name = before.lookup skill.name)

section

variable {setup : Setup} {policy : SkillPolicy}

theorem turns_reports (skills : List DesiredSkill) (env : Nat → Nat → Attempt) (progress : Progress) :
    ∃ reports, (progress.turns setup policy skills env).reports = progress.reports ++ reports ∧
      reports.map (·.name) = skills.map (·.name) := by
  induction skills generalizing env progress with
  | nil => exact ⟨[], (List.append_nil _).symm, rfl⟩
  | cons skill skills ih =>
    obtain ⟨reports, hreports, hnames⟩ :=
      ih (fun i => env (i + 1)) (progress.turn setup policy (env 0) skill)
    obtain ⟨report, hname, hreport⟩ : ∃ report, report.name = skill.name ∧
        (progress.turn setup policy (env 0) skill).reports = progress.reports ++ [report] := by
      rcases @turn_cases setup policy (env 0) skill progress with
        ⟨installed, attempts, -, -, h⟩ | ⟨err, attempts, -, h⟩
      · exact ⟨_, rfl, h⟩
      · exact ⟨_, rfl, h⟩
    refine ⟨report :: reports, ?_, ?_⟩
    · rw [Progress.turns, hreports, hreport, List.append_assoc, List.singleton_append]
    · rw [List.map_cons, List.map_cons, hname, hnames]

/-- A turn is about its own skill only. -/
theorem turn_other {env : Nat → Attempt} {skill : DesiredSkill} {progress : Progress} {name : String}
    (hname : name ≠ skill.name) :
    (progress.turn setup policy env skill).active.lookup name = progress.active.lookup name := by
  rcases @turn_cases setup policy env skill progress with ⟨installed, _, -, h, -⟩ | ⟨_, _, h, -⟩
  · rw [h, SortedMap.lookup_insert, if_neg hname]
  · rw [h]

theorem turns_other {skills : List DesiredSkill} {env : Nat → Nat → Attempt} {progress : Progress}
    {name : String} (hname : name ∉ skills.map (·.name)) :
    (progress.turns setup policy skills env).active.lookup name = progress.active.lookup name := by
  induction skills generalizing env progress with
  | nil => rfl
  | cons skill skills ih =>
    rw [List.map_cons, List.mem_cons, not_or] at hname
    rw [Progress.turns, ih hname.2, turn_other hname.1]

theorem turns_settled {skills : List DesiredSkill} {env : Nat → Nat → Attempt} {progress : Progress}
    (hdistinct : (skills.map (·.name)).Nodup) {skill : DesiredSkill} (hskill : skill ∈ skills) :
    SkillSettled progress.active (progress.turns setup policy skills env).active
      (progress.turns setup policy skills env).reports skill := by
  induction skills generalizing env progress with
  | nil => cases hskill
  | cons first skills ih =>
    obtain ⟨hfresh, hdistinct⟩ := List.nodup_cons.mp hdistinct
    rcases List.mem_cons.mp hskill with rfl | hskill
    · obtain ⟨later, hlaterReports, -⟩ := @turns_reports setup policy skills (fun i => env (i + 1))
        (progress.turn setup policy (env 0) skill)
      have hsub : (progress.turn setup policy (env 0) skill).reports ⊆
          (progress.turns setup policy (skill :: skills) env).reports := by
        rw [Progress.turns, hlaterReports]
        exact List.subset_append_left _ _
      have hlater := @turns_other setup policy skills (fun i => env (i + 1))
        (progress.turn setup policy (env 0) skill) skill.name hfresh
      rcases @turn_cases setup policy (env 0) skill progress with
        ⟨installed, attempts, hsha, hactive, hreports⟩ | ⟨err, attempts, hactive, hreports⟩
      · refine ⟨_, hsub (hreports ▸ List.mem_append_right _ (List.mem_singleton_self _)), rfl, rfl,
          .inl ⟨rfl, installed, ?_, hsha⟩⟩
        rw [Progress.turns, hlater, hactive, SortedMap.lookup_insert, if_pos rfl]
      · refine ⟨_, hsub (hreports ▸ List.mem_append_right _ (List.mem_singleton_self _)), rfl, rfl,
          .inr ⟨rfl, rfl, ?_⟩⟩
        rw [Progress.turns, hlater, hactive]
    · have hname : skill.name ≠ first.name :=
        fun heq => hfresh (List.mem_map.mpr ⟨skill, hskill, heq⟩)
      obtain ⟨report, hreport, hreportName, hsha, hstate⟩ := @ih (fun i => env (i + 1))
        (progress.turn setup policy (env 0) first) hdistinct hskill
      rw [turn_other hname] at hstate
      exact ⟨report, hreport, hreportName, hsha, hstate⟩

end

/-! ## Reconciling -/

section

variable {setup : Setup} {host : Host} {desired : DesiredSet} {conditions : Conditions}

theorem lookup_retained (active : ActiveSkills) (skills : List DesiredSkill) (name : String) :
    (retained active skills).lookup name =
      if name ∈ skills.map (·.name) then active.lookup name else none := by
  rw [retained, SortedMap.lookup_filter]
  split
  · next hmem =>
    have hcontains : (skills.map (·.name)).contains name = true := List.contains_iff_mem.mpr hmem
    cases h : active.lookup name with
    | none => rfl
    | some entry => exact if_pos hcontains
  · next hmem =>
    have hcontains : (skills.map (·.name)).contains name = false := by
      rw [← Bool.not_eq_true, List.contains_iff_mem]
      exact hmem
    cases h : active.lookup name with
    | none => rfl
    | some entry => exact if_neg (by rw [hcontains]; exact Bool.false_ne_true)

/-- What a reconcile with something to do comes to. -/
theorem reconcile_of_not_noop (h : host.inner.isNoop desired = false) :
    (host.reconcile setup desired conditions).1.inner =
        ⟨desired.generation, max host.inner.seen desired.generation,
          (host.settled setup desired conditions).active,
          some (host.reconcile setup desired conditions).2, [], desired.policy⟩ ∧
      (host.reconcile setup desired conditions).2 =
        ⟨desired.generation, sortByName (host.settled setup desired conditions).reports⟩ := by
  unfold Host.reconcile
  rw [h]
  exact ⟨rfl, rfl⟩

theorem reconcile_disk (h : host.inner.isNoop desired = false) :
    (host.reconcile setup desired conditions).1.disk =
      if conditions.writeFails.isSome then (host.settled setup desired conditions).disk
      else { (host.settled setup desired conditions).disk with
        state := some (diskState desired.generation (host.settled setup desired conditions).active) } := by
  unfold Host.reconcile
  rw [h]
  rfl

theorem reconcile_of_noop (h : host.inner.isNoop desired = true) :
    host.reconcile setup desired conditions = (host, host.inner.snapshot) := by
  unfold Host.reconcile
  exact if_pos h

theorem isNoop_of_newer (h : host.inner.generation < desired.generation) :
    host.inner.isNoop desired = false := by
  have hlt : ¬ desired.generation < host.inner.generation := by omega
  have hne : desired.generation ≠ host.inner.generation := by omega
  simp [Inner.isNoop, hlt, hne]

/-- What is settled after a reconcile. -/
structure Settles (before after : ActiveSkills) (desired : DesiredSet) (snapshot : SkillSnapshot) :
    Prop where
  applied : snapshot.appliedGeneration = desired.generation
  active : ∀ name, after.contains name = true → name ∈ desired.skills.map (·.name)
  skills : ∀ skill ∈ desired.skills, SkillSettled before after snapshot.skills skill
  reports : (snapshot.skills.map (·.name)).Perm (desired.skills.map (·.name))

theorem settled_settles (h : host.inner.isNoop desired = false)
    (hdistinct : (desired.skills.map (·.name)).Nodup) :
    Settles host.inner.skills (host.reconcile setup desired conditions).1.inner.skills desired
      (host.reconcile setup desired conditions).2 := by
  obtain ⟨hinner, hsnapshot⟩ := @reconcile_of_not_noop setup host desired conditions h
  have hsorted : (sortByName (host.settled setup desired conditions).reports).Perm
      (host.settled setup desired conditions).reports := List.mergeSort_perm _ _
  obtain ⟨reports, hreports, hnames⟩ := @turns_reports setup desired.policy desired.skills
    conditions.attempts (host.begin desired)
  rw [hinner, hsnapshot]
  constructor
  case applied => rfl
  case active =>
    intro name hname
    by_contra hmem
    have hkept := @turns_other setup desired.policy desired.skills conditions.attempts
      (host.begin desired) name hmem
    rw [SortedMap.contains, Host.settled, hkept, Host.begin, lookup_retained, if_neg hmem] at hname
    cases hname
  case skills =>
    intro skill hskill
    obtain ⟨report, hreport, hname, hsha, hstate⟩ := @turns_settled setup desired.policy
      desired.skills conditions.attempts (host.begin desired) hdistinct skill hskill
    rw [Host.begin, lookup_retained, if_pos (List.mem_map_of_mem hskill)] at hstate
    exact ⟨report, hsorted.mem_iff.mpr hreport, hname, hsha, hstate⟩
  case reports =>
    refine (hsorted.map _).trans (.of_eq ?_)
    rw [Host.settled, hreports]
    exact hnames

theorem generation_le (setup : Setup) (host : Host) (desired : DesiredSet) (conditions : Conditions) :
    host.inner.generation ≤ (host.reconcile setup desired conditions).1.inner.generation ∧
      host.inner.seen ≤ (host.reconcile setup desired conditions).1.inner.seen := by
  cases h : host.inner.isNoop desired with
  | true =>
    rw [reconcile_of_noop h]
    exact ⟨le_refl _, le_refl _⟩
  | false =>
    rw [(reconcile_of_not_noop h).1]
    refine ⟨?_, le_max_left _ _⟩
    simp [Inner.isNoop] at h
    exact h.1

end

/-! ## Runs -/

/-- Reconciles one after the other. -/
def Host.run (setup : Setup) (host : Host) (steps : List (DesiredSet × Conditions)) : Host :=
  steps.foldl (fun host step => (host.reconcile setup step.1 step.2).1) host

/-- A step of a run has nothing to do. -/
def Host.Idle (setup : Setup) (host : Host) : List (DesiredSet × Conditions) → Prop
  | [] => True
  | step :: steps => host.inner.isNoop step.1 = true ∧ host.Idle setup steps

section

variable {setup : Setup}

theorem run_generation_le (host : Host) (steps : List (DesiredSet × Conditions)) :
    host.inner.generation ≤ (host.run setup steps).inner.generation ∧
      host.inner.seen ≤ (host.run setup steps).inner.seen := by
  induction steps generalizing host with
  | nil => exact ⟨le_refl _, le_refl _⟩
  | cons step steps ih =>
    obtain ⟨hgeneration, hseen⟩ := generation_le setup host step.1 step.2
    obtain ⟨hgeneration', hseen'⟩ := ih (host.reconcile setup step.1 step.2).1
    exact ⟨hgeneration.trans hgeneration', hseen.trans hseen'⟩

/-- What startup put aside stays reported until a reconcile has something to do. -/
theorem run_bootFailures (host : Host) (steps : List (DesiredSet × Conditions)) :
    (host.run setup steps).inner.bootFailures = [] ∨
      host.Idle setup steps ∧ host.run setup steps = host := by
  induction steps generalizing host with
  | nil => exact .inr ⟨trivial, rfl⟩
  | cons step steps ih =>
    have hrun : host.run setup (step :: steps) =
      (host.reconcile setup step.1 step.2).1.run setup steps := rfl
    rw [hrun]
    cases h : host.inner.isNoop step.1 with
    | true =>
      rw [reconcile_of_noop h]
      exact (ih host).imp_right fun ⟨hidle, heq⟩ => ⟨⟨h, hidle⟩, heq⟩
    | false =>
      rcases ih (host.reconcile setup step.1 step.2).1 with hnone | ⟨-, heq⟩
      · exact .inl hnone
      · rw [heq, (reconcile_of_not_noop h).1]
        exact .inl rfl

end

/-! ## Opening -/

section

variable {formats : Formats} {stamp : String} {writeFails : Option String} {disk : Disk}

/-- What `state.json` says is there. -/
def Disk.stated (disk : Disk) : DiskState := disk.state.getD ⟨0, .empty⟩

/-- Every skill of `state.json` is in the store, with the module of its manifest. -/
def Disk.Intact (formats : Formats) (disk : Disk) : Prop :=
  ∀ name skill, disk.stated.skills.lookup name = some skill →
    verifyActive formats disk.store skill.sha256 = .ok ()

theorem openSkills_intact {entries : List (String × DiskSkill)} {opening : Opening}
    (h : ∀ entry ∈ entries, verifyActive formats opening.disk.store entry.2.sha256 = .ok ()) :
    entries.foldlM (fun opening (name, skill) => openSkill formats stamp opening name skill) opening =
      .ok opening := by
  induction entries with
  | nil => rfl
  | cons entry entries ih =>
    obtain ⟨name, skill⟩ := entry
    have hopen : openSkill formats stamp opening name skill = .ok opening := by
      rw [openSkill, h (name, skill) List.mem_cons_self]
    rw [List.foldlM_cons]
    dsimp only
    rw [hopen]
    exact ih fun entry hentry => h entry (.tail _ hentry)

/-- Opening intact files changes nothing. -/
theorem openHost_intact (h : disk.Intact formats) :
    openHost formats stamp writeFails disk =
      .ok ⟨⟨disk.stated.generation, disk.stated.generation,
        disk.stated.skills.map fun _ skill => openedSkill skill, none, [], defaultPolicy⟩, disk⟩ := by
  have hopen := @openSkills_intact formats stamp disk.stated.skills.entries ⟨disk, []⟩
    fun entry hentry => h entry.1 entry.2 (SortedMap.lookup_eq_some_iff.mpr hentry)
  rw [openHost, ← Disk.stated]
  dsimp only
  rw [hopen]
  rfl

end

/-! ## A node -/

def uptimeSha256 : String := "ca6785667b9a216052744c61b16a5b35aab014c247434606dd680b544ab51eb9"

def uptimeSkill : DesiredSkill where
  name := "uptime"
  version := "1.0.0"
  sha256 := uptimeSha256
  sizeBytes := widerPackage.length
  abi := abi
  signatureEnvelope := []
  fetchTicket := "ticket-1"

def uptimeMarker : Json := marker "uptime" uptimeSha256 "1.0.0"

/-- A node for `widerPackage`, with the default limits. -/
def uptimeSetup : Setup where
  formats := { widerFormats with
    json.parse := fun _ => some uptimeMarker
    json.print := fun _ => "\x7b\"name\":\"uptime\",\"sha256\":\"" ++ uptimeSha256 ++
      "\",\"version\":\"1.0.0\"\x7d" }
  limits := ⟨10, 600 * 10 ^ 9, 10 ^ 9, 300 * 10 ^ 9⟩
  compile := fun _ => .ok [0x7F, 0x45, 0x4C, 0x46]
  engineId := "engine"
  platform := "linux/amd64"

/-- An attempt at which the source answers with an error. -/
def refusedAttempt : Attempt where
  fetch := fun _ => .error "connection refused"
  io := fun _ => none
  written := 0
  left := fun _ _ => none
  took := 10 ^ 9
  late := 0

def refusing : Conditions := ⟨fun _ _ => refusedAttempt, none⟩

def desiredOne (generation : Int) (skills : List DesiredSkill) : DesiredSet :=
  ⟨generation, skills, defaultPolicy⟩

/-- A host that was opened on no files. -/
def freshHost : Host := ⟨⟨0, 0, .empty, none, [], defaultPolicy⟩, .empty⟩

/-! ## What holds of every reconcile -/

/-- The center desires a skill of a name at most once.  Startup quarantines when the
files are not intact. -/
theorem reconcile_settles {setup : Setup} {stamp : String} {writeFails : Option String} {disk : Disk}
    {opened : Host} (hopened : openHost setup.formats stamp writeFails disk = .ok opened)
    (history : List (DesiredSet × Conditions)) (desired : DesiredSet) (conditions : Conditions)
    (hdistinct : (desired.skills.map (·.name)).Nodup) :
    let host := opened.run setup history
    let reconciled := host.reconcile setup desired conditions
    (host.inner.generation < desired.generation →
      Settles host.inner.skills reconciled.1.inner.skills desired reconciled.2) ∧
    (desired.generation ≤ host.inner.generation → reconciled = (host, host.inner.snapshot) ∨
      desired.generation = host.inner.generation ∧ ¬ disk.Intact setup.formats ∧
        opened.Idle setup history) ∧
    ∀ later, host.inner.generation ≤ (host.run setup later).inner.generation ∧
      host.inner.seen ≤ (host.run setup later).inner.seen := by
  intro host reconciled
  refine ⟨fun hnewer => settled_settles (isNoop_of_newer hnewer) hdistinct, fun hle => ?_,
    run_generation_le host⟩
  cases hnoop : host.inner.isNoop desired with
  | true => exact .inl (reconcile_of_noop hnoop)
  | false =>
    right
    simp [Inner.isNoop] at hnoop
    obtain ⟨hge, hfailures⟩ := hnoop
    have heq : desired.generation = host.inner.generation := le_antisymm hle hge
    rcases run_bootFailures opened history with hnone | ⟨hidle, hrun⟩
    · exact absurd hnone (hfailures heq)
    · refine ⟨heq, fun hintact => hfailures heq ?_, hidle⟩
      rw [openHost_intact hintact] at hopened
      cases hopened
      exact congrArg (·.inner.bootFailures) hrun

/-- A second skill is desired, and its source refuses. -/
theorem reconcile_settles_refused :
    let history := [(desiredOne 1 [uptimeSkill], refusing)]
    let second := { uptimeSkill with name := "disk", fetchTicket := "ticket-2" }
    let host := freshHost.run uptimeSetup history
    let reconciled := host.reconcile uptimeSetup (desiredOne 2 [uptimeSkill, second]) refusing
    (host.inner.generation < 2 → Settles host.inner.skills reconciled.1.inner.skills
      (desiredOne 2 [uptimeSkill, second]) reconciled.2) ∧
    (2 ≤ host.inner.generation → reconciled = (host, host.inner.snapshot) ∨
      2 = host.inner.generation ∧ ¬ Disk.empty.Intact uptimeSetup.formats ∧
        freshHost.Idle uptimeSetup history) ∧
    ∀ later, host.inner.generation ≤ (host.run uptimeSetup later).inner.generation ∧
      host.inner.seen ≤ (host.run uptimeSetup later).inner.seen :=
  @reconcile_settles uptimeSetup "0" none .empty freshHost rfl [(desiredOne 1 [uptimeSkill], refusing)]
    (desiredOne 2 [uptimeSkill, { uptimeSkill with name := "disk", fetchTicket := "ticket-2" }])
    refusing (by decide)

end Novbot.Skills
