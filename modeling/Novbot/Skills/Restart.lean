import Novbot.Skills.Referenced
import Novbot.Skills.Unpacked
import Mathlib.Data.List.Nodup

/-!
# Restarts

`state.json` holds the active skills and nothing of the reports, so a host that starts
again reports what it reported before exactly when the last reconcile wrote the file
and installed every skill.  The modules of active skills verify over any run, since a
store directory is written whole and loses files only.
-/

namespace Novbot.Skills

open Novbot.Package Text

/-! ## Sealed directories -/

/-- The module of a directory is the one of its manifest, if it has both. -/
def SealedDir (formats : Formats) (dir : Directory) : Prop :=
  ∀ text wasm, readText dir "skill.toml" = some text → dir.lookup "module.wasm" = some wasm →
    moduleHashFromToml formats text = .ok (formats.sha256 wasm)

def SealedStore (formats : Formats) (store : SortedMap String Directory) : Prop :=
  ∀ sha256 dir, store.lookup sha256 = some dir → SealedDir formats dir

section

variable {formats : Formats} {store : SortedMap String Directory}

/-- A directory that loses files stays sealed. -/
theorem SealedDir.filter {dir : Directory} (h : SealedDir formats dir) (keep : String → Bool) :
    SealedDir formats (dir.filter fun path _ => keep path) := by
  have hlost : ∀ {path : String} {bytes : Bytes},
      (dir.filter fun path _ => keep path).lookup path = some bytes → dir.lookup path = some bytes := by
    intro path bytes hpath
    rw [SortedMap.lookup_filter] at hpath
    exact (Option.filter_eq_some_iff.mp hpath).1
  intro text wasm htext hwasm
  refine h text wasm ?_ (hlost hwasm)
  unfold readText at htext ⊢
  obtain ⟨bytes, hbytes, hread⟩ := Option.bind_eq_some_iff.mp htext
  rw [hlost hbytes]
  exact hread

/-- The module of a package that opens is the one of its manifest. -/
theorem openPackage_module {bytes wasm : Bytes} {name version : String} {package : Package}
    (h : openPackage formats bytes name version = .ok package)
    (hwasm : package.files.lookup "module.wasm" = some wasm) {text : String}
    (htext : readText package.files "skill.toml" = some text) :
    moduleHashFromToml formats text = .ok (formats.sha256 wasm) := by
  obtain ⟨-, hverify, hmodule, -, tomlBytes, chars, htoml, hchars, hmanifest⟩ := loadPackageInner_ok h
  obtain ⟨hhashes, hdeclared⟩ := verifyHashes_ok.mp hverify
  unfold readText at htext
  rw [htoml, Option.bind_some, hchars, Option.map_some, Option.some.injEq] at htext
  subst htext
  cases hhash : package.manifest.files.lookup "module.wasm" with
  | none =>
    have hundeclared : "module.wasm" ∈ package.files.keys.filter
        fun path => path ≠ "skill.toml" && !package.manifest.files.contains path := by
      refine List.mem_filter.mpr ⟨SortedMap.mem_keys.mpr hmodule, ?_⟩
      rw [SortedMap.contains, hhash]
      rfl
    rw [hdeclared] at hundeclared
    cases hundeclared
  | some hash =>
    obtain ⟨-, data, hdata, hsha⟩ := hhashes _ (SortedMap.lookup_eq_some_iff.mp hhash)
    cases hwasm.symm.trans hdata
    unfold moduleHashFromToml
    refine Check.bind_eq_ok.mpr ⟨package.manifest, hmanifest, ?_⟩
    rw [hhash, hsha]
    rfl

/-- A sealed directory has the files of the package, and two of its own. -/
theorem sealedFiles_lookup {skill : DesiredSkill} {package : Package} {path : String}
    (hmarker : path ≠ markerPath) (henvelope : path ≠ envelopePath) :
    (sealedFiles formats skill package).lookup path = package.files.lookup path := by
  rw [sealedFiles, SortedMap.lookup_insert, if_neg hmarker]
  split
  · rfl
  · rw [SortedMap.lookup_insert, if_neg henvelope]

/-- The directory of a package that opens. -/
theorem sealedFiles_sealed {bytes : Bytes} {name version : String} {package : Package}
    (h : openPackage formats bytes name version = .ok package) (skill : DesiredSkill) :
    SealedDir formats (sealedFiles formats skill package) := by
  intro text wasm htext hwasm
  rw [readText, sealedFiles_lookup (by decide) (by decide), ← readText] at htext
  rw [sealedFiles_lookup (by decide) (by decide)] at hwasm
  exact openPackage_module h hwasm htext

/-! ## Sealed stores -/

theorem SealedStore.removeStore (h : SealedStore formats store) (left : Option (String → Bool))
    (sha256 : String) : SealedStore formats (removeStore left sha256 store) := by
  intro other dir hdir
  by_cases hother : other = sha256
  case neg =>
    rw [removeStore_other hother] at hdir
    exact h other dir hdir
  case pos =>
    subst hother
    unfold Skills.removeStore at hdir
    split at hdir
    · next keep whole hwhole =>
      rw [SortedMap.lookup_insert, if_pos rfl] at hdir
      cases hdir
      exact (h other whole hwhole).filter keep
    · rw [SortedMap.lookup_filter] at hdir
      exact h other dir (Option.filter_eq_some_iff.mp hdir).1

theorem SealedStore.insert (h : SealedStore formats store) {sha256 : String} {dir : Directory}
    (hdir : SealedDir formats dir) : SealedStore formats (store.insert sha256 dir) := by
  intro other found hfound
  rw [SortedMap.lookup_insert] at hfound
  split at hfound
  · cases hfound
    exact hdir
  · exact h other found hfound

theorem SealedStore.sealStore {attempt : Attempt} {skill : DesiredSkill} {package : Package}
    {bytes : Bytes} {result : Except InstallError Unit} {store' : SortedMap String Directory}
    (h : SealedStore formats store)
    (hopened : openPackage formats bytes skill.name skill.version = .ok package)
    (hstored : sealStore formats attempt skill package store = (result, store')) :
    SealedStore formats store' := by
  have hdir := sealedFiles_sealed hopened skill
  unfold Skills.sealStore at hstored
  dsimp only at hstored
  split at hstored
  · cases hstored
    exact h
  · split at hstored
    · cases hstored
      exact h
    · split at hstored
      · cases hstored
        exact h.removeStore _ _
      · split at hstored
        · cases hstored
          exact h.removeStore _ _
        · split at hstored
          · cases hstored
            exact ((h.removeStore _ _).insert hdir).removeStore _ _
          · cases hstored
            exact (h.removeStore _ _).insert hdir

theorem SealedStore.removeDropped (h : SealedStore formats store) {attempt : Attempt}
    {skill : DesiredSkill} {active : ActiveSkills} {previous dropped : List String} :
    SealedStore formats (removeDropped attempt skill active previous dropped store) := by
  induction dropped generalizing store with
  | nil => exact h
  | cons sha dropped ih =>
    refine @ih (if shaReferenced skill active sha previous then store
      else Skills.removeStore (attempt.left .trimmed sha) sha store) ?_
    split
    · exact h
    · exact h.removeStore _ _

/-! ## Verification -/

theorem verifyActive_congr {store' : SortedMap String Directory} {sha256 : String}
    (h : store'.lookup sha256 = store.lookup sha256) :
    verifyActive formats store' sha256 = verifyActive formats store sha256 := by
  rw [verifyActive, verifyActive, storeVerified_congr h, h]

theorem storeVerified_of_verifyActive {sha256 : String}
    (h : verifyActive formats store sha256 = .ok ()) : storeVerified formats store sha256 = true := by
  unfold verifyActive at h
  split at h
  · next hverified _ => exact hverified
  · cases h

/-- A sealed directory with both files verifies. -/
theorem verifyActive_sealed {sha256 text : String} {dir : Directory} {wasm : Bytes}
    (hsealed : SealedStore formats store) (hverified : storeVerified formats store sha256 = true)
    (hdir : store.lookup sha256 = some dir) (htext : readText dir "skill.toml" = some text)
    (hwasm : dir.lookup "module.wasm" = some wasm) :
    verifyActive formats store sha256 = .ok () := by
  unfold verifyActive
  rw [hverified, hdir]
  dsimp only
  rw [htext]
  refine Check.bind_eq_ok.mpr ⟨_, hsealed _ _ hdir text wasm htext hwasm, ?_⟩
  rw [hwasm]
  exact if_neg (not_not.mpr rfl)

end

/-! ## Reconciles -/

/-- The store is sealed, and the module of every active skill verifies. -/
structure Sound (formats : Formats) (store : SortedMap String Directory) (active : ActiveSkills) :
    Prop where
  stored : SealedStore formats store
  verifies : ∀ name entry, active.lookup name = some entry →
    verifyActive formats store entry.sha256 = .ok ()

section

variable {setup : Setup} {policy : SkillPolicy}

theorem stored_verifies {attempt : Attempt} {skill : DesiredSkill} {limits : LimitsToml}
    {store store' : SortedMap String Directory} (hread : MarkerRead setup.formats skill)
    (hsealed : SealedStore setup.formats store)
    (hstored : Stored setup attempt skill limits store store') :
    SealedStore setup.formats store' ∧ verifyActive setup.formats store' skill.sha256 = .ok () := by
  have hverified := stored_verified hread hstored
  cases hstored with
  | reused dir _ hfound hwasm htoml _ hsame =>
    subst hsame
    obtain ⟨wasm, hwasm⟩ := Option.isSome_iff_exists.mp hwasm
    obtain ⟨text, htext⟩ := Option.isSome_iff_exists.mp htoml
    exact ⟨hsealed, verifyActive_sealed hsealed hverified hfound htext hwasm⟩
  | sealed package bytes _ hopened _ hstored =>
    have hafter := hsealed.sealStore hopened hstored
    obtain ⟨-, -, hmodule, -, tomlBytes, chars, htoml, hchars, -⟩ := loadPackageInner_ok hopened
    obtain ⟨wasm, hwasm⟩ := Option.isSome_iff_exists.mp hmodule
    refine ⟨hafter, @verifyActive_sealed _ _ _ (.ofList chars) _ wasm hafter hverified
      (sealStore_own hstored) ?_ ?_⟩
    · rw [readText, sealedFiles_lookup (by decide) (by decide), htoml, Option.bind_some, hchars]
      rfl
    · rw [sealedFiles_lookup (by decide) (by decide)]
      exact hwasm

theorem turn_sound {env : Nat → Attempt} {skill : DesiredSkill} {progress : Progress}
    (hread : MarkerRead setup.formats skill)
    (hsound : Sound setup.formats progress.disk.store progress.active) :
    Sound setup.formats (progress.turn setup policy env skill).disk.store
      (progress.turn setup policy env skill).active := by
  have hverified : ∀ name entry, progress.active.lookup name = some entry →
      storeVerified setup.formats progress.disk.store entry.sha256 = true :=
    fun name entry hentry => storeVerified_of_verifyActive (hsound.verifies name entry hentry)
  have hsame : ∀ {store : SortedMap String Directory}, Untouched setup.formats progress.disk.store store →
      ∀ name entry, progress.active.lookup name = some entry →
        verifyActive setup.formats store entry.sha256 = .ok () :=
    fun huntouched name entry hentry =>
      (verifyActive_congr (huntouched _ (hverified name entry hentry))).trans
        (hsound.verifies name entry hentry)
  rcases @turn_stores setup policy env skill (fun disk =>
      Untouched setup.formats progress.disk.store disk.store ∧ SealedStore setup.formats disk.store)
    progress (fun i disk disk' h _ hunstored => by
      refine ⟨untouched_unstored h.1 hunstored, ?_⟩
      cases hunstored with
      | same hsame => exact hsame ▸ h.2
      | unsealed package bytes err _ hopened hstored => exact h.2.sealStore hopened hstored)
    ⟨fun _ _ => rfl, hsound.stored⟩ with
    ⟨-, hactive, huntouched, hsealed⟩ |
      ⟨-, i, disk, limits, mid, ⟨hdisk, hsealed⟩, -, hstored, hactive, heq⟩
  · rw [hactive]
    exact ⟨hsealed, hsame huntouched⟩
  · obtain ⟨hmidSealed, hown⟩ := stored_verifies hread hsealed hstored
    have hmid := untouched_stored hdisk hstored
    rw [hactive, heq, activate_store]
    refine ⟨hmidSealed.removeDropped, fun name entry hentry => ?_⟩
    have hnamed : Named (progress.active.insert skill.name
        (activate (env i) skill policy progress.active limits mid).1) entry.sha256 :=
      ⟨name, entry, hentry, names_iff.mpr (.inl rfl)⟩
    rw [verifyActive_congr (removeDropped_referenced ((shaReferenced_iff rfl).mpr hnamed))]
    rw [SortedMap.lookup_insert] at hentry
    split at hentry
    · cases hentry
      exact hown
    · exact hsame hmid name entry hentry

theorem turns_sound {skills : List DesiredSkill} {env : Nat → Nat → Attempt} {progress : Progress}
    (hread : ∀ skill ∈ skills, MarkerRead setup.formats skill)
    (hsound : Sound setup.formats progress.disk.store progress.active) :
    Sound setup.formats (progress.turns setup policy skills env).disk.store
      (progress.turns setup policy skills env).active := by
  induction skills generalizing env progress with
  | nil => exact hsound
  | cons skill skills ih =>
    exact ih (fun later hlater => hread later (.tail _ hlater))
      (turn_sound (hread skill List.mem_cons_self) hsound)

theorem begin_sound {host : Host} (desired : DesiredSet)
    (h : Sound setup.formats host.disk.store host.inner.skills) :
    Sound setup.formats (host.begin desired).disk.store (host.begin desired).active := by
  refine ⟨h.stored, fun name entry hentry => ?_⟩
  rw [Host.begin, lookup_retained] at hentry
  split at hentry
  · exact h.verifies name entry hentry
  · cases hentry

theorem reconcile_sound {host : Host} {desired : DesiredSet} {conditions : Conditions}
    (hread : ∀ skill ∈ desired.skills, MarkerRead setup.formats skill)
    (h : Sound setup.formats host.disk.store host.inner.skills) :
    Sound setup.formats (host.reconcile setup desired conditions).1.disk.store
      (host.reconcile setup desired conditions).1.inner.skills := by
  cases hnoop : host.inner.isNoop desired with
  | true => rwa [reconcile_of_noop hnoop]
  | false =>
    rw [(reconcile_store hnoop).1, (reconcile_store hnoop).2]
    exact turns_sound hread (begin_sound desired h)

/-- Each row of a snapshot is about an active skill or failed, and each active skill has
a row. -/
def Covers (rows : List ReportedSkill) (active : ActiveSkills) : Prop :=
  (∀ row ∈ rows, row.state = .failed ∨
    ∃ entry, active.lookup row.name = some entry ∧ entry.sha256 = row.sha256) ∧
  ∀ name, active.contains name = true → name ∈ rows.map (·.name)

theorem Settles.covers {before after : ActiveSkills} {desired : DesiredSet} {snapshot : SkillSnapshot}
    (h : Settles before after desired snapshot) (hdistinct : (desired.skills.map (·.name)).Nodup) :
    Covers snapshot.skills after := by
  have hnodup : (snapshot.skills.map (·.name)).Nodup := h.reports.nodup_iff.mpr hdistinct
  constructor
  · intro row hrow
    have hname : row.name ∈ desired.skills.map (·.name) :=
      h.reports.mem_iff.mp (List.mem_map_of_mem hrow)
    obtain ⟨skill, hskill, hskillName⟩ := List.mem_map.mp hname
    obtain ⟨report, hreport, hreportName, hsha, hstate⟩ := h.skills skill hskill
    have hsame : report = row :=
      List.inj_on_of_nodup_map hnodup hreport hrow (hreportName.trans hskillName)
    subst hsame
    rcases hstate with ⟨-, entry, hentry, hentrySha⟩ | ⟨hfailed, -⟩
    · exact .inr ⟨entry, hreportName ▸ hentry, hentrySha.trans hsha.symm⟩
    · exact .inl hfailed
  · exact fun name hname => h.reports.mem_iff.mpr (h.active name hname)

end

/-! ## What a snapshot says -/

/-- What a snapshot says about a skill. -/
def ReportedSkill.row (report : ReportedSkill) : String × String × ReportState :=
  (report.name, report.sha256, report.state)

/-- The snapshots say the same about the same skills, at the same generation. -/
structure SameSnapshot (before after : SkillSnapshot) : Prop where
  applied : before.appliedGeneration = after.appliedGeneration
  rows : ∀ row, row ∈ before.skills.map (·.row) ↔ row ∈ after.skills.map (·.row)

/-- No row of the last report is a failure. -/
def Inner.AllInstalled (inner : Inner) : Prop :=
  ∀ report, inner.lastReport = some report → ∀ row ∈ report.skills, row.state = .installed

theorem mem_built {inner : Inner} (h : inner.bootFailures = []) {name sha256 : String}
    {state : ReportState} : (name, sha256, state) ∈ inner.built.skills.map (·.row) ↔
      state = .installed ∧ ∃ entry, inner.skills.lookup name = some entry ∧ entry.sha256 = sha256 := by
  have hsorted : (inner.built.skills.map (·.row)).Perm (inner.skills.entries.map
      fun entry => (activeReport entry.1 entry.2).row) := by
    refine ((List.mergeSort_perm _ _).map _).trans (.of_eq ?_)
    rw [h, List.append_nil, List.map_map]
    rfl
  rw [hsorted.mem_iff, List.mem_map]
  constructor
  · rintro ⟨⟨other, entry⟩, hmem, heq⟩
    cases heq
    exact ⟨rfl, entry, SortedMap.lookup_eq_some_iff.mpr hmem, rfl⟩
  · rintro ⟨rfl, entry, hentry, rfl⟩
    exact ⟨(name, entry), SortedMap.lookup_eq_some_iff.mp hentry, rfl⟩

theorem snapshot_applied (inner : Inner) : inner.snapshot.appliedGeneration = inner.generation := by
  unfold Inner.snapshot
  split
  · split
    · next h => exact h.1
    · rfl
  · rfl

/-- What a covering report without failures says. -/
theorem Covers.mem_rows {rows : List ReportedSkill} {active : ActiveSkills} (h : Covers rows active)
    (hinstalled : ∀ row ∈ rows, row.state = .installed) {name sha256 : String} {state : ReportState} :
    (name, sha256, state) ∈ rows.map (·.row) ↔
      state = .installed ∧ ∃ entry, active.lookup name = some entry ∧ entry.sha256 = sha256 := by
  have hactive : ∀ row ∈ rows, ∃ entry, active.lookup row.name = some entry ∧
      entry.sha256 = row.sha256 := by
    intro row hrow
    refine (h.1 row hrow).resolve_left fun hfailed => ?_
    rw [hinstalled row hrow] at hfailed
    cases hfailed
  constructor
  · intro hmem
    obtain ⟨row, hrow, heq⟩ := List.mem_map.mp hmem
    cases heq
    exact ⟨hinstalled row hrow, hactive row hrow⟩
  · rintro ⟨rfl, entry, hentry, rfl⟩
    have hcontains : active.contains name = true := by
      rw [SortedMap.contains, hentry]
      rfl
    obtain ⟨row, hrow, rfl⟩ := List.mem_map.mp (h.2 name hcontains)
    obtain ⟨found, hfound, hsha⟩ := hactive row hrow
    cases hentry.symm.trans hfound
    refine List.mem_map.mpr ⟨row, hrow, ?_⟩
    rw [ReportedSkill.row, hinstalled row hrow, hsha]

/-! ## Runs -/

/-- Files as a host leaves them. -/
structure Disk.Untampered (formats : Formats) (disk : Disk) : Prop where
  stored : SealedStore formats disk.store
  intact : disk.Intact formats
  nonneg : 0 ≤ disk.stated.generation

/-- What holds of a host that was opened on untampered files. -/
structure Consistent (formats : Formats) (host : Host) : Prop where
  sound : Sound formats host.disk.store host.inner.skills
  noFailures : host.inner.bootFailures = []
  nonneg : 0 ≤ host.disk.stated.generation
  /-- `state.json` is of the applied generation, or of an older one. -/
  saved : host.disk.stated = diskState host.inner.generation host.inner.skills ∨
    host.disk.stated.generation < host.inner.generation
  reports : ∀ report, host.inner.lastReport = some report →
    report.appliedGeneration = host.inner.generation ∧ Covers report.skills host.inner.skills

section

variable {formats : Formats} {setup : Setup} {stamp : String} {writeFails : Option String}

theorem opened_consistent {disk : Disk} {host : Host} (huntampered : disk.Untampered formats)
    (hopened : openHost formats stamp writeFails disk = .ok host) : Consistent formats host := by
  rw [openHost_intact huntampered.intact] at hopened
  cases hopened
  constructor
  case sound =>
    refine ⟨huntampered.stored, fun name entry hentry => ?_⟩
    rw [SortedMap.lookup_map] at hentry
    obtain ⟨skill, hskill, rfl⟩ := Option.map_eq_some_iff.mp hentry
    exact huntampered.intact name skill hskill
  case noFailures => rfl
  case nonneg => exact huntampered.nonneg
  case saved =>
    refine .inl ?_
    have hskills : disk.stated.skills = (disk.stated.skills.map fun _ skill => openedSkill skill).map
        fun _ skill => ⟨skill.sha256, skill.version, skill.previous⟩ := by
      refine SortedMap.ext_lookup fun name => ?_
      rw [SortedMap.lookup_map, SortedMap.lookup_map, Option.map_map]
      exact Option.map_id'.symm
    unfold diskState
    rw [← hskills]
  case reports =>
    intro report hreport
    cases hreport

theorem turns_state {policy : SkillPolicy} {skills : List DesiredSkill} {env : Nat → Nat → Attempt}
    {progress : Progress} :
    (progress.turns setup policy skills env).disk.state = progress.disk.state := by
  induction skills generalizing env progress with
  | nil => rfl
  | cons skill skills ih =>
    rw [Progress.turns, ih]
    rcases @turn_stores setup policy (env 0) skill (fun disk => disk.state = progress.disk.state)
      progress (fun i disk disk' h hstate _ => hstate.trans h) rfl with
      ⟨-, -, hdisk⟩ | ⟨-, i, disk, limits, mid, hdisk, hmid, -, -, heq⟩
    · exact hdisk
    · rw [heq]
      exact hmid.trans hdisk

/-- Without failures at startup only a newer generation is something to do. -/
theorem newer_of_not_noop {inner : Inner} {desired : DesiredSet} (h : inner.isNoop desired = false)
    (hfailures : inner.bootFailures = []) : inner.generation < desired.generation := by
  simp [Inner.isNoop, hfailures] at h
  omega

theorem reconcile_consistent {host : Host} {desired : DesiredSet} {conditions : Conditions}
    (hread : ∀ skill ∈ desired.skills, MarkerRead setup.formats skill)
    (hdistinct : (desired.skills.map (·.name)).Nodup) (h : Consistent setup.formats host) :
    Consistent setup.formats (host.reconcile setup desired conditions).1 := by
  cases hnoop : host.inner.isNoop desired with
  | true => rwa [reconcile_of_noop hnoop]
  | false =>
    have hnewer := newer_of_not_noop hnoop h.noFailures
    have holder : host.disk.stated.generation ≤ host.inner.generation := by
      rcases h.saved with hsaved | hsaved
      · exact Int.le_of_eq (by rw [hsaved]; rfl)
      · exact Int.le_of_lt hsaved
    have hstated : (host.settled setup desired conditions).disk.stated = host.disk.stated := by
      rw [Disk.stated, Host.settled, turns_state]
      rfl
    have hcovers := (@settled_settles setup host desired conditions hnoop hdistinct).covers hdistinct
    obtain ⟨hinner, hsnapshot⟩ := @reconcile_of_not_noop setup host desired conditions hnoop
    constructor
    case sound => exact reconcile_sound hread h.sound
    case noFailures => rw [hinner]
    case nonneg =>
      have hnonneg := h.nonneg
      rw [reconcile_disk hnoop]
      split
      · exact hstated ▸ hnonneg
      · show 0 ≤ desired.generation
        omega
    case saved =>
      rw [hinner, reconcile_disk hnoop]
      split
      · right
        rw [hstated]
        exact Int.lt_of_le_of_lt holder hnewer
      · exact .inl rfl
    case reports =>
      intro report hreport
      rw [hinner] at hreport ⊢
      cases hreport
      refine ⟨by rw [hsnapshot], ?_⟩
      rw [hinner] at hcovers
      exact hcovers

theorem run_consistent {host : Host} {steps : List (DesiredSet × Conditions)}
    (hread : ∀ step ∈ steps, ∀ skill ∈ step.1.skills, MarkerRead setup.formats skill)
    (hdistinct : ∀ step ∈ steps, (step.1.skills.map (·.name)).Nodup)
    (h : Consistent setup.formats host) : Consistent setup.formats (host.run setup steps) := by
  induction steps generalizing host with
  | nil => exact h
  | cons step steps ih =>
    exact ih (fun later hlater => hread later (.tail _ hlater))
      (fun later hlater => hdistinct later (.tail _ hlater))
      (reconcile_consistent (hread step List.mem_cons_self) (hdistinct step List.mem_cons_self) h)

/-! ## After a restart -/

theorem openHost_inner {disk : Disk} {host : Host}
    (h : openHost formats stamp writeFails disk = .ok host) :
    host.inner.lastReport = none ∧
      (host.inner.generation = disk.stated.generation ∨ host.inner.generation = 0) := by
  rw [openHost, ← Disk.stated] at h
  dsimp only at h
  obtain ⟨opening, -, h⟩ := Check.bind_eq_ok.mp h
  split at h
  · cases h
    exact ⟨rfl, .inl rfl⟩
  · split at h
    · cases h
    · cases h
      exact ⟨rfl, .inr rfl⟩

/-- A consistent host reports the same after a restart exactly when `state.json` is of the
applied generation and no skill failed. -/
theorem reopened_same_iff {host reopened : Host} (h : Consistent formats host)
    (hreopened : openHost formats stamp writeFails host.disk = .ok reopened) :
    SameSnapshot host.inner.snapshot reopened.inner.snapshot ↔
      host.disk.stated.generation = host.inner.generation ∧ host.inner.AllInstalled := by
  rcases h.saved with hsaved | hsaved
  case inr =>
    have hnonneg := h.nonneg
    refine iff_of_false (fun hsame => ?_) fun hcurrent => by omega
    have happlied := hsame.applied
    rw [snapshot_applied, snapshot_applied] at happlied
    rcases (openHost_inner hreopened).2 with hgeneration | hgeneration
    · omega
    · omega
  case inl =>
    have hgeneration : host.disk.stated.generation = host.inner.generation := by rw [hsaved]; rfl
    have hlookup : ∀ name, host.disk.stated.skills.lookup name =
        (host.inner.skills.lookup name).map
          fun skill => ⟨skill.sha256, skill.version, skill.previous⟩ := by
      intro name
      rw [hsaved, diskState, SortedMap.lookup_map]
    have hintact : host.disk.Intact formats := by
      intro name skill hskill
      rw [hlookup] at hskill
      obtain ⟨entry, hentry, rfl⟩ := Option.map_eq_some_iff.mp hskill
      exact h.sound.verifies name entry hentry
    rw [openHost_intact hintact] at hreopened
    cases hreopened
    have hafter : ∀ name sha256 state, (name, sha256, state) ∈ (Inner.snapshot
        ⟨host.disk.stated.generation, host.disk.stated.generation,
          host.disk.stated.skills.map fun _ skill => openedSkill skill, none, [],
          defaultPolicy⟩).skills.map (·.row) ↔
        state = .installed ∧ ∃ entry, host.inner.skills.lookup name = some entry ∧
          entry.sha256 = sha256 := by
      intro name sha256 state
      refine (mem_built rfl).trans (and_congr_right fun _ => ?_)
      rw [SortedMap.lookup_map, hlookup]
      cases host.inner.skills.lookup name with
      | none => simp
      | some entry => simp [openedSkill]
    have happlied : host.inner.snapshot.appliedGeneration = host.disk.stated.generation :=
      (snapshot_applied _).trans hgeneration.symm
    cases hreport : host.inner.lastReport with
    | none =>
      have hbefore : host.inner.snapshot = host.inner.built := by rw [Inner.snapshot, hreport]
      refine iff_of_true ⟨happlied, fun ⟨name, sha256, state⟩ => ?_⟩ ⟨hgeneration, fun report h => ?_⟩
      · rw [hafter, hbefore]
        exact mem_built h.noFailures
      · rw [hreport] at h
        cases h
    | some report =>
      obtain ⟨hcurrent, hcovers⟩ := h.reports report hreport
      have hbefore : host.inner.snapshot = report := by
        rw [Inner.snapshot, hreport]
        exact if_pos ⟨hcurrent, h.noFailures⟩
      constructor
      · intro hsame
        refine ⟨hgeneration, fun found hfound row hrow => ?_⟩
        cases hreport.symm.trans hfound
        have hmem := (hsame.rows row.row).mp (by
          rw [hbefore]
          exact List.mem_map_of_mem hrow)
        exact ((hafter _ _ _).mp hmem).1
      · rintro ⟨-, hinstalled⟩
        refine ⟨happlied, fun ⟨name, sha256, state⟩ => ?_⟩
        rw [hafter, hbefore]
        exact hcovers.mem_rows (hinstalled report hreport)

end

/-- After a run of reconciles, a host reports the same once it is started again exactly
when the last reconcile wrote `state.json` and installed every skill. -/
theorem restart_same_iff {setup : Setup} {stamp stamp' : String} {writeFails writeFails' : Option String}
    {disk : Disk} {opened reopened : Host} (huntampered : disk.Untampered setup.formats)
    (hopened : openHost setup.formats stamp writeFails disk = .ok opened)
    {steps : List (DesiredSet × Conditions)}
    (hread : ∀ step ∈ steps, ∀ skill ∈ step.1.skills, MarkerRead setup.formats skill)
    (hdistinct : ∀ step ∈ steps, (step.1.skills.map (·.name)).Nodup)
    (hreopened : openHost setup.formats stamp' writeFails' (opened.run setup steps).disk = .ok reopened) :
    SameSnapshot (opened.run setup steps).inner.snapshot reopened.inner.snapshot ↔
      (opened.run setup steps).disk.stated.generation = (opened.run setup steps).inner.generation ∧
        (opened.run setup steps).inner.AllInstalled :=
  reopened_same_iff (run_consistent hread hdistinct (opened_consistent huntampered hopened)) hreopened

/-- A fresh host after a fetch that was refused. -/
def refusedHost : Host := freshHost.run uptimeSetup [(desiredOne 1 [uptimeSkill], refusing)]

theorem refusedHost_opens : openHost uptimeSetup.formats "0" none refusedHost.disk =
    .ok ⟨⟨1, 1, .empty, none, [], defaultPolicy⟩, refusedHost.disk⟩ := by
  have hstate : refusedHost.disk.state = some ⟨1, .empty⟩ := by decide +kernel
  have hstated : refusedHost.disk.stated = ⟨1, .empty⟩ := by rw [Disk.stated, hstate]; rfl
  have hintact : refusedHost.disk.Intact uptimeSetup.formats := by
    intro name skill hskill
    rw [hstated] at hskill
    cases hskill
  rw [openHost_intact hintact, hstated]
  rfl

theorem restart_same_iff_refused :
    SameSnapshot refusedHost.inner.snapshot
        (Inner.snapshot ⟨1, 1, .empty, none, [], defaultPolicy⟩) ↔
      refusedHost.disk.stated.generation = refusedHost.inner.generation ∧
        refusedHost.inner.AllInstalled := by
  refine @restart_same_iff uptimeSetup "0" "0" none none .empty freshHost _ ?_ rfl
    [(desiredOne 1 [uptimeSkill], refusing)] ?_ ?_ refusedHost_opens
  · constructor
    case stored => exact fun _ _ h => by cases h
    case intact => exact fun _ _ h => by cases h
    case nonneg => exact Int.le_refl _
  · intro step hstep skill hskill
    cases List.mem_singleton.mp hstep
    cases List.mem_singleton.mp hskill
    rfl
  · intro step hstep
    cases List.mem_singleton.mp hstep
    decide

/-- A skill whose fetch was refused is reported failed before a restart, and not at all
after it. -/
theorem failure_forgotten :
    ∃ reopened, openHost uptimeSetup.formats "0" none refusedHost.disk = .ok reopened ∧
      ("uptime", uptimeSha256, .failed) ∈ refusedHost.inner.snapshot.skills.map (·.row) ∧
      reopened.inner.snapshot.skills = [] ∧
      ¬ SameSnapshot refusedHost.inner.snapshot reopened.inner.snapshot := by
  refine ⟨_, refusedHost_opens, ?_⟩
  have hrows : (freshHost.settled uptimeSetup (desiredOne 1 [uptimeSkill]) refusing).reports.map
      (·.row) = [("uptime", uptimeSha256, .failed)] := by decide +kernel
  have hnew : freshHost.inner.isNoop (desiredOne 1 [uptimeSkill]) = false := rfl
  obtain ⟨hinner, hsnapshot⟩ := @reconcile_of_not_noop uptimeSetup freshHost
    (desiredOne 1 [uptimeSkill]) refusing hnew
  have hbefore : refusedHost.inner.snapshot = ⟨1, sortByName
      (freshHost.settled uptimeSetup (desiredOne 1 [uptimeSkill]) refusing).reports⟩ := by
    show Inner.snapshot (freshHost.reconcile uptimeSetup (desiredOne 1 [uptimeSkill]) refusing).1.inner = _
    rw [hinner, Inner.snapshot, hsnapshot]
    rfl
  have hfailed : ("uptime", uptimeSha256, ReportState.failed) ∈
      refusedHost.inner.snapshot.skills.map (·.row) := by
    rw [hbefore]
    refine ((List.mergeSort_perm _ _).map _).mem_iff.mpr ?_
    rw [hrows]
    exact List.mem_singleton_self _
  have hafter : (Inner.snapshot ⟨1, 1, .empty, none, [], defaultPolicy⟩).skills = [] :=
    List.mergeSort_nil
  refine ⟨hfailed, hafter, fun hsame => ?_⟩
  have hmem := (hsame.rows _).mp hfailed
  rw [hafter] at hmem
  cases hmem

end Novbot.Skills
