import Novbot.Skills.Restart

/-!
# The limits of active skills

An install gives a skill the limits of its manifest, clamped to the policy.  They are
in memory only: a host that starts again gives every skill the default limits, and a
skill whose install fails keeps the limits of the policy before.
-/

namespace Novbot.Skills

open Novbot.Package Text

/-- What a skill runs with. -/
structure RunLimits where
  timeoutMs : Nat
  memoryBytes : Nat
  deriving DecidableEq, Repr

def ActiveSkill.limits (entry : ActiveSkill) : RunLimits := ⟨entry.timeoutMs, entry.memoryBytes⟩

/-- The limits that a manifest asks for, under a policy. -/
def Manifest.clamped (manifest : Manifest) (policy : SkillPolicy) : RunLimits :=
  ⟨clampTimeoutMs manifest.timeoutMs policy.maxTimeoutMs,
    clampMemoryBytes manifest.memoryMb policy.maxMemoryMb⟩

/-- The limits of a skill that was opened. -/
def openedLimits : RunLimits :=
  ⟨defaultPolicy.maxTimeoutMs, defaultPolicy.maxMemoryMb * (1024 * 1024)⟩

/-- The manifest of a package in the store. -/
def storedManifest (formats : Formats) (store : SortedMap String Directory) (sha256 : String) :
    Option Manifest := do
  let text ← readText (← store.lookup sha256) "skill.toml"
  (parseManifest formats text).toOption

/-! ## Two readings of a manifest -/

section

variable {formats : Formats} {store : SortedMap String Directory} {sha256 : String}

/-- What the whole manifest says of `[runtime]`. -/
theorem parseManifest_runtime (hlaws : formats.Laws) {text : String} {manifest : Manifest}
    (h : parseManifest formats text = .ok manifest) :
    ∃ members value runtime, formats.toml text = .ok (.table members) ∧
      members.lookup "runtime" = some value ∧ RuntimeToml.decode value = .ok runtime ∧
      manifest.timeoutMs = runtime.limits.timeoutMs ∧ manifest.memoryMb = runtime.limits.memoryMb := by
  unfold parseManifest at h
  simp only [Check.throw_bind, Check.bind_eq_ok, Check.ite_throw_eq_ok, Check.pure_eq_ok] at h
  obtain ⟨raw, hraw, -, -, -, files, -, grants, -, rfl⟩ := h
  cases htoml : formats.toml text with
  | error err =>
    rw [htoml] at hraw
    cases hraw
  | ok doc =>
    obtain ⟨members, rfl⟩ := hlaws.document text doc htoml
    rw [htoml] at hraw
    cases hdecode : ManifestToml.decode (.table members) with
    | error err =>
      rw [Except.bind, hdecode] at hraw
      cases hraw
    | ok found =>
      rw [Except.bind, hdecode] at hraw
      cases hraw
      unfold ManifestToml.decode at hdecode
      simp only [Check.bind_eq_ok, Check.pure_eq_ok] at hdecode
      obtain ⟨get, hget, _, -, _, -, _, -, _, -, runtime, hruntime, _, -, _, -, rfl⟩ := hdecode
      cases hget
      unfold Toml.required at hruntime
      split at hruntime
      · next value hvalue => exact ⟨members, value, runtime, rfl, hvalue, hruntime, rfl, rfl⟩
      · cases hruntime

/-- The limits by themselves are those of the whole manifest. -/
theorem storedLimits_eq (hlaws : formats.Laws) {text : String} {manifest : Manifest}
    {limits : LimitsToml} (hmanifest : parseManifest formats text = .ok manifest)
    (hlimits : (formats.toml text).bind storedLimits = .ok limits) :
    limits = ⟨manifest.timeoutMs, manifest.memoryMb⟩ := by
  obtain ⟨members, value, runtime, htoml, hvalue, hruntime, htimeout, hmemory⟩ :=
    parseManifest_runtime hlaws hmanifest
  rw [htimeout, hmemory]
  rw [htoml] at hlimits
  have hlimits : storedLimits (.table members) = .ok limits := hlimits
  unfold storedLimits at hlimits
  simp only [Check.bind_eq_ok] at hlimits
  obtain ⟨get, hget, hlimits⟩ := hlimits
  cases hget
  rw [Toml.orDefault, hvalue] at hlimits
  simp only [Check.bind_eq_ok] at hlimits
  obtain ⟨get, hget, hlimits⟩ := hlimits
  unfold RuntimeToml.decode at hruntime
  simp only [Check.bind_eq_ok, Check.pure_eq_ok] at hruntime
  obtain ⟨get', hget', kind, hkind, abi, -, found, hfound, rfl⟩ := hruntime
  cases value with
  | table runtime =>
    cases hget
    cases hget'
    exact Except.ok.inj (hlimits.symm.trans hfound)
  | datetime text =>
    cases hget'
    cases hkind
  | arr items =>
    -- by position the first value is the kind of the whole and the limits of the other
    cases hget
    cases hget'
    cases items with
    | nil => cases hkind
    | cons first items =>
      cases first with
      | str text => cases hlimits
      | _ => cases hkind
  | _ => cases hget

theorem storedManifest_eq_some {dir : Directory} {text : String} {manifest : Manifest}
    (hdir : store.lookup sha256 = some dir) (htext : readText dir "skill.toml" = some text)
    (hmanifest : parseManifest formats text = .ok manifest) :
    storedManifest formats store sha256 = some manifest := by
  rw [storedManifest, hdir, Option.bind_eq_bind, Option.bind_some, htext, Option.bind_eq_bind,
    Option.bind_some, hmanifest]
  rfl

theorem storedManifest_congr {store' : SortedMap String Directory}
    (h : store'.lookup sha256 = store.lookup sha256) :
    storedManifest formats store' sha256 = storedManifest formats store sha256 := by
  rw [storedManifest, storedManifest, h]

/-- A module that verifies has a manifest. -/
theorem storedManifest_of_verifyActive (h : verifyActive formats store sha256 = .ok ()) :
    ∃ manifest, storedManifest formats store sha256 = some manifest := by
  unfold verifyActive at h
  split at h
  · next dir _ hdir =>
    cases htext : readText dir "skill.toml" with
    | none =>
      rw [htext] at h
      cases h
    | some text =>
      rw [htext] at h
      obtain ⟨hash, hhash, -⟩ := Check.bind_eq_ok.mp h
      unfold moduleHashFromToml at hhash
      obtain ⟨manifest, hmanifest, -⟩ := Check.bind_eq_ok.mp hhash
      exact ⟨manifest, storedManifest_eq_some hdir htext hmanifest⟩
  · cases h

end

/-! ## Turns -/

/-- An entry runs with the limits of its manifest under a policy. -/
def ActiveSkill.Clamped (formats : Formats) (store : SortedMap String Directory) (policy : SkillPolicy)
    (entry : ActiveSkill) : Prop :=
  ∃ manifest, storedManifest formats store entry.sha256 = some manifest ∧
    entry.limits = manifest.clamped policy

section

variable {setup : Setup} {policy : SkillPolicy}

theorem ActiveSkill.Clamped.congr {formats : Formats} {store store' : SortedMap String Directory}
    {entry : ActiveSkill} (h : entry.Clamped formats store policy)
    (hstore : store'.lookup entry.sha256 = store.lookup entry.sha256) :
    entry.Clamped formats store' policy := by
  obtain ⟨manifest, hmanifest, hlimits⟩ := h
  exact ⟨manifest, (storedManifest_congr hstore).trans hmanifest, hlimits⟩

/-- The limits of an attempt are those of the manifest that is stored. -/
theorem stored_limits (hlaws : setup.formats.Laws) {attempt : Attempt} {skill : DesiredSkill}
    {limits : LimitsToml} {store store' : SortedMap String Directory}
    (hsealed : SealedStore setup.formats store)
    (hstored : Stored setup attempt skill limits store store') :
    ∃ manifest, storedManifest setup.formats store' skill.sha256 = some manifest ∧
      limits = ⟨manifest.timeoutMs, manifest.memoryMb⟩ := by
  cases hstored with
  | reused dir hverified hfound hwasm htoml hlimits hsame =>
    subst hsame
    obtain ⟨wasm, hwasm⟩ := Option.isSome_iff_exists.mp hwasm
    obtain ⟨text, htext⟩ := Option.isSome_iff_exists.mp htoml
    obtain ⟨manifest, hmanifest, -⟩ := Check.bind_eq_ok.mp (hsealed _ _ hfound text wasm htext hwasm)
    refine ⟨manifest, storedManifest_eq_some hfound htext hmanifest, ?_⟩
    unfold readStoredManifest at hlimits
    rw [htext] at hlimits
    split at hlimits
    · next heq =>
      cases heq
      cases hdecode : (setup.formats.toml text).bind storedLimits with
      | error err =>
        rw [hdecode] at hlimits
        cases hlimits
      | ok found =>
        rw [hdecode] at hlimits
        cases hlimits
        exact storedLimits_eq hlaws hmanifest hdecode
    · cases hlimits
    · cases hlimits
  | sealed package bytes hverified hopened hlimits hstored =>
    obtain ⟨-, -, -, -, tomlBytes, chars, htoml, hchars, hmanifest⟩ := loadPackageInner_ok hopened
    refine ⟨package.manifest, storedManifest_eq_some (sealStore_own hstored) ?_ hmanifest, hlimits⟩
    rw [readText, sealedFiles_lookup (by decide) (by decide), htoml, Option.bind_some, hchars]
    rfl

/-- A turn that installs gives the limits of the manifest, and one that fails changes
nothing that is active. -/
theorem turn_limits (hlaws : setup.formats.Laws) {env : Nat → Attempt} {skill : DesiredSkill}
    {progress : Progress}
    (hsound : Sound setup.formats progress.disk.store progress.active) :
    (∀ name entry, (progress.turn setup policy env skill).active.lookup name = some entry →
      progress.active.lookup name = some entry →
      (progress.turn setup policy env skill).disk.store.lookup entry.sha256 =
        progress.disk.store.lookup entry.sha256) ∧
    (((progress.outcome setup policy env skill).result.isOk = false ∧
        (progress.turn setup policy env skill).active = progress.active) ∨
      (progress.outcome setup policy env skill).result.isOk = true ∧
        ∃ installed, (progress.turn setup policy env skill).active =
            progress.active.insert skill.name installed ∧
          installed.Clamped setup.formats (progress.turn setup policy env skill).disk.store policy) := by
  have hverified : ∀ name entry, progress.active.lookup name = some entry →
      storeVerified setup.formats progress.disk.store entry.sha256 = true :=
    fun name entry hentry => storeVerified_of_verifyActive (hsound.verifies name entry hentry)
  rcases @turn_stores setup policy env skill (fun disk =>
      Untouched setup.formats progress.disk.store disk.store ∧ SealedStore setup.formats disk.store)
    progress (fun i disk disk' h _ hunstored => by
      refine ⟨untouched_unstored h.1 hunstored, ?_⟩
      cases hunstored with
      | same hsame => exact hsame ▸ h.2
      | unsealed package bytes err _ hopened hstored => exact h.2.sealStore hopened hstored)
    ⟨fun _ _ => rfl, hsound.stored⟩ with
    ⟨hfails, hactive, huntouched, -⟩ |
      ⟨hok, i, disk, limits, mid, ⟨hdisk, hsealed⟩, -, hstored, hactive, heq⟩
  · exact ⟨fun name entry _ hentry => huntouched _ (hverified name entry hentry),
      .inl ⟨hfails, hactive⟩⟩
  · have hmid := untouched_stored hdisk hstored
    have hkept : ∀ name entry, (progress.turn setup policy env skill).active.lookup name = some entry →
        (progress.turn setup policy env skill).disk.store.lookup entry.sha256 =
          mid.store.lookup entry.sha256 := by
      intro name entry hentry
      rw [hactive] at hentry
      rw [heq, activate_store]
      exact removeDropped_referenced
        ((shaReferenced_iff rfl).mpr ⟨name, entry, hentry, names_iff.mpr (.inl rfl)⟩)
    constructor
    · intro name entry hafter hentry
      rw [hkept name entry hafter, hmid _ (hverified name entry hentry)]
    · refine .inr ⟨hok, _, hactive, ?_⟩
      obtain ⟨manifest, hmanifest, hlimits⟩ := stored_limits hlaws hsealed hstored
      have hown := hkept skill.name _ (by rw [hactive, SortedMap.lookup_insert, if_pos rfl])
      refine ⟨manifest, (storedManifest_congr hown).trans hmanifest, ?_⟩
      rw [hlimits]
      rfl

/-- No turn installs a skill of this name. -/
def Progress.Passes (setup : Setup) (policy : SkillPolicy) (name : String) :
    List DesiredSkill → (Nat → Nat → Attempt) → Progress → Prop
  | [], _, _ => True
  | skill :: skills, env, progress =>
    (skill.name = name → (progress.outcome setup policy (env 0) skill).result.isOk = false) ∧
      Progress.Passes setup policy name skills (fun i => env (i + 1))
        (progress.turn setup policy (env 0) skill)

theorem turns_limits (hlaws : setup.formats.Laws) {skills : List DesiredSkill}
    {env : Nat → Nat → Attempt} {progress : Progress}
    (hread : ∀ skill ∈ skills, MarkerRead setup.formats skill)
    (hsound : Sound setup.formats progress.disk.store progress.active) (name : String) :
    (progress.Passes setup policy name skills env →
      (progress.turns setup policy skills env).active.lookup name = progress.active.lookup name ∧
        ∀ entry, progress.active.lookup name = some entry →
          (progress.turns setup policy skills env).disk.store.lookup entry.sha256 =
            progress.disk.store.lookup entry.sha256) ∧
    (¬ progress.Passes setup policy name skills env →
      ∃ entry, (progress.turns setup policy skills env).active.lookup name = some entry ∧
        entry.Clamped setup.formats (progress.turns setup policy skills env).disk.store policy) := by
  induction skills generalizing env progress with
  | nil => exact ⟨fun _ => ⟨rfl, fun _ _ => rfl⟩, fun h => absurd trivial h⟩
  | cons skill skills ih =>
    obtain ⟨hstore, hturn⟩ := @turn_limits setup policy hlaws (env 0) skill progress hsound
    obtain ⟨hpasses, hinstalls⟩ := @ih (fun i => env (i + 1)) (progress.turn setup policy (env 0) skill)
      (fun later hlater => hread later (.tail _ hlater))
      (turn_sound (hread skill List.mem_cons_self) hsound)
    have hsame : (progress.turn setup policy (env 0) skill).active.lookup name =
        progress.active.lookup name →
        (progress.turn setup policy (env 0) skill).Passes setup policy name skills
          (fun i => env (i + 1)) →
        (progress.turns setup policy (skill :: skills) env).active.lookup name =
            progress.active.lookup name ∧
          ∀ entry, progress.active.lookup name = some entry →
            (progress.turns setup policy (skill :: skills) env).disk.store.lookup entry.sha256 =
              progress.disk.store.lookup entry.sha256 := by
      intro hlookup hlater
      obtain ⟨hactive, hkept⟩ := hpasses hlater
      refine ⟨hactive.trans hlookup, fun entry hentry => ?_⟩
      have hafter := hlookup.trans hentry
      exact (hkept entry hafter).trans (hstore name entry hafter hentry)
    rcases hturn with ⟨hfails, hactive⟩ | ⟨hok, installed, hactive, hclamped⟩
    · exact ⟨fun h => hsame (by rw [hactive]) h.2,
        fun h => hinstalls fun hlater => h ⟨fun _ => hfails, hlater⟩⟩
    · by_cases hname : skill.name = name
      case neg =>
        have hlookup : (progress.turn setup policy (env 0) skill).active.lookup name =
            progress.active.lookup name := by
          rw [hactive, SortedMap.lookup_insert, if_neg (Ne.symm hname)]
        exact ⟨fun h => hsame hlookup h.2,
          fun h => hinstalls fun hlater => h ⟨fun heq => absurd heq hname, hlater⟩⟩
      case pos =>
        subst hname
        refine ⟨fun h => ?_, fun h => ?_⟩
        · rw [h.1 rfl] at hok
          cases hok
        · by_cases hlater : (progress.turn setup policy (env 0) skill).Passes setup policy skill.name
              skills fun i => env (i + 1)
          case neg => exact hinstalls hlater
          case pos =>
            obtain ⟨hkeeps, hkept⟩ := hpasses hlater
            have hentry : (progress.turn setup policy (env 0) skill).active.lookup skill.name =
                some installed := by
              rw [hactive, SortedMap.lookup_insert, if_pos rfl]
            exact ⟨installed, hkeeps.trans hentry, hclamped.congr (hkept installed hentry)⟩

end

/-! ## Opening -/

section

variable {formats : Formats} {stamp : String} {writeFails : Option String} {disk : Disk}

/-- What opening leaves of a store: the directories that verify, and perhaps others. -/
def Remains (formats : Formats) (start store : SortedMap String Directory) : Prop :=
  ∀ sha256, store.lookup sha256 = start.lookup sha256 ∨
    store.lookup sha256 = none ∧ verifyActive formats start sha256 ≠ .ok ()

theorem Remains.verifyActive_iff {start store : SortedMap String Directory}
    (h : Remains formats start store) (sha256 : String) :
    verifyActive formats store sha256 = .ok () ↔ verifyActive formats start sha256 = .ok () := by
  rcases h sha256 with hsame | ⟨hgone, hfails⟩
  · rw [verifyActive_congr hsame]
  · refine iff_of_false (fun hok => ?_) hfails
    obtain ⟨dir, hdir, -⟩ := (storeVerified_iff _).mp (storeVerified_of_verifyActive hok)
    rw [hgone] at hdir
    cases hdir

/-- Nothing is added to what was sealed. -/
theorem Remains.stored {start store : SortedMap String Directory} (h : Remains formats start store)
    (hsealed : SealedStore formats start) : SealedStore formats store := by
  intro sha256 dir hdir
  rcases h sha256 with hsame | ⟨hgone, -⟩
  · exact hsealed sha256 dir (hsame.symm.trans hdir)
  · rw [hgone] at hdir
    cases hdir

/-- Only what does not verify is put aside. -/
theorem Remains.filter {start store : SortedMap String Directory} (h : Remains formats start store)
    {sha256 : String} (hfails : verifyActive formats start sha256 ≠ .ok ()) :
    Remains formats start (store.filter fun path _ => path ≠ sha256) := by
  intro other
  rw [SortedMap.lookup_filter]
  by_cases hother : other = sha256
  case pos =>
    subst hother
    refine .inr ⟨?_, hfails⟩
    cases store.lookup other with
    | none => rfl
    | some dir => exact if_neg (by simp)
  case neg =>
    rcases h other with hsame | ⟨hgone, hnot⟩
    · rw [hsame]
      left
      cases start.lookup other with
      | none => rfl
      | some dir => exact if_pos (by simp [hother])
    · rw [hgone]
      exact .inr ⟨rfl, hnot⟩

theorem quarantineStore_remains {start : SortedMap String Directory} {sha256 : String} {after : Disk}
    (hquarantine : quarantineStore stamp sha256 disk = .ok after)
    (h : Remains formats start disk.store)
    (hfails : verifyActive formats start sha256 ≠ .ok ()) : Remains formats start after.store := by
  simp only [quarantineStore] at hquarantine
  split at hquarantine
  · cases hquarantine
    exact h
  · split at hquarantine
    · split at hquarantine
      · cases hquarantine
      · cases hquarantine
        exact h.filter hfails
    · cases hquarantine
      exact h.filter hfails

theorem openSkill_remains {start : SortedMap String Directory} {opening opening' : Opening}
    {name : String} {skill : DiskSkill}
    (hopen : openSkill formats stamp opening name skill = .ok opening')
    (h : Remains formats start opening.disk.store) :
    Remains formats start opening'.disk.store ∧ ∀ other, other ∈ opening'.failures.map (·.name) ↔
      other ∈ opening.failures.map (·.name) ∨
        other = name ∧ verifyActive formats start skill.sha256 ≠ .ok () := by
  have hiff := h.verifyActive_iff skill.sha256
  unfold openSkill at hopen
  split at hopen
  · next hok =>
    cases hopen
    exact ⟨h, fun other => ⟨.inl, fun hother => hother.resolve_right fun hfails => hfails.2 (hiff.mp hok)⟩⟩
  · next err herr =>
    have hfails : verifyActive formats start skill.sha256 ≠ .ok () := by
      rw [Ne, ← hiff, herr]
      exact fun heq => by cases heq
    obtain ⟨after, hquarantine, hpure⟩ := Check.bind_eq_ok.mp hopen
    cases hpure
    refine ⟨quarantineStore_remains hquarantine h hfails, fun other => ?_⟩
    rw [List.map_append, List.mem_append]
    refine or_congr Iff.rfl ?_
    rw [List.map_singleton, List.mem_singleton]
    exact ⟨fun heq => ⟨heq, hfails⟩, fun heq => heq.1⟩

theorem openSkills_remains {start : SortedMap String Directory} {entries : List (String × DiskSkill)}
    {opening opening' : Opening}
    (hopen : entries.foldlM (fun opening (name, skill) => openSkill formats stamp opening name skill)
      opening = .ok opening') (h : Remains formats start opening.disk.store) :
    Remains formats start opening'.disk.store ∧ ∀ name, name ∈ opening'.failures.map (·.name) ↔
      name ∈ opening.failures.map (·.name) ∨ ∃ skill, (name, skill) ∈ entries ∧
        verifyActive formats start skill.sha256 ≠ .ok () := by
  induction entries generalizing opening with
  | nil =>
    cases hopen
    refine ⟨h, fun name => ⟨.inl, ?_⟩⟩
    rintro (hmem | ⟨skill, hmem, -⟩)
    · exact hmem
    · cases hmem
  | cons entry entries ih =>
    obtain ⟨first, skill⟩ := entry
    rw [List.foldlM_cons] at hopen
    obtain ⟨mid, hmid, hrest⟩ := Check.bind_eq_ok.mp hopen
    obtain ⟨hremains, hfirst⟩ := openSkill_remains hmid h
    obtain ⟨hafter, hlater⟩ := ih hrest hremains
    refine ⟨hafter, fun name => ?_⟩
    rw [hlater, hfirst, or_assoc]
    refine or_congr Iff.rfl ⟨?_, ?_⟩
    · rintro (⟨rfl, hfails⟩ | ⟨found, hmem, hfails⟩)
      · exact ⟨skill, List.mem_cons_self, hfails⟩
      · exact ⟨found, .tail _ hmem, hfails⟩
    · rintro ⟨found, hmem, hfails⟩
      rcases List.mem_cons.mp hmem with heq | hmem
      · cases heq
        exact .inl ⟨rfl, hfails⟩
      · exact .inr ⟨found, hmem, hfails⟩

/-- The host that opening gives. -/
structure Reopens (formats : Formats) (disk : Disk) (host : Host) : Prop where
  remains : Remains formats disk.store host.disk.store
  /-- A skill that verifies is active, with the limits of an opened one. -/
  active : ∀ name entry, host.inner.skills.lookup name = some entry ↔
    ∃ skill, disk.stated.skills.lookup name = some skill ∧
      verifyActive formats disk.store skill.sha256 = .ok () ∧ entry = openedSkill skill
  kept : ∀ sha256, verifyActive formats disk.store sha256 = .ok () →
    host.disk.store.lookup sha256 = disk.store.lookup sha256

theorem openHost_reopens {host : Host}
    (h : openHost formats stamp writeFails disk = .ok host) : Reopens formats disk host := by
  rw [openHost, ← Disk.stated] at h
  dsimp only at h
  obtain ⟨opening, hopening, h⟩ := Check.bind_eq_ok.mp h
  have hstart : Remains formats disk.store disk.store := fun _ => .inl rfl
  obtain ⟨hfound, hnames⟩ := openSkills_remains hopening hstart
  have hfailed : ∀ name skill, disk.stated.skills.lookup name = some skill →
      (name ∈ opening.failures.map (·.name) ↔
        verifyActive formats disk.store skill.sha256 ≠ .ok ()) := by
    intro name skill hskill
    rw [hnames]
    constructor
    · rintro (hmem | ⟨other, hmem, hfails⟩)
      · cases hmem
      · cases hskill.symm.trans (SortedMap.lookup_eq_some_iff.mpr hmem)
        exact hfails
    · exact fun hfails => .inr ⟨skill, SortedMap.lookup_eq_some_iff.mp hskill, hfails⟩
  have hkept : ∀ sha256, verifyActive formats disk.store sha256 = .ok () →
      opening.disk.store.lookup sha256 = disk.store.lookup sha256 :=
    fun sha256 hok => (hfound sha256).resolve_right fun hgone => hgone.2 hok
  split at h
  · next hempty =>
    cases h
    refine ⟨hfound, fun name entry => ?_, hkept⟩
    rw [SortedMap.lookup_map]
    constructor
    · intro hentry
      obtain ⟨skill, hskill, rfl⟩ := Option.map_eq_some_iff.mp hentry
      refine ⟨skill, hskill, ?_, rfl⟩
      by_contra hfails
      have hmem := (hfailed name skill hskill).mpr hfails
      rw [List.isEmpty_iff.mp hempty] at hmem
      cases hmem
    · rintro ⟨skill, hskill, -, rfl⟩
      rw [hskill]
      rfl
  · split at h
    · cases h
    · cases h
      refine ⟨hfound, fun name entry => ?_, hkept⟩
      dsimp only
      rw [SortedMap.lookup_map, openedState, SortedMap.lookup_filter]
      constructor
      · intro hentry
        obtain ⟨skill, hskill, rfl⟩ := Option.map_eq_some_iff.mp hentry
        obtain ⟨hskill, hlisted⟩ := Option.filter_eq_some_iff.mp hskill
        refine ⟨skill, hskill, ?_, rfl⟩
        by_contra hfails
        have hmem := (hfailed name skill hskill).mpr hfails
        rw [List.contains_iff_mem.mpr hmem] at hlisted
        cases hlisted
      · rintro ⟨skill, hskill, hok, rfl⟩
        have hlisted : (opening.failures.map (·.name)).contains name = false := by
          rw [← Bool.not_eq_true, List.contains_iff_mem]
          exact fun hmem => (hfailed name skill hskill).mp hmem hok
        rw [hskill, Option.filter_some, hlisted]
        rfl

theorem Reopens.sound {host : Host} (h : Reopens formats disk host)
    (hsealed : SealedStore formats disk.store) : Sound formats host.disk.store host.inner.skills := by
  refine ⟨h.remains.stored hsealed, fun name entry hentry => ?_⟩
  obtain ⟨skill, -, hok, rfl⟩ := (h.active name entry).mp hentry
  exact (verifyActive_congr (h.kept _ hok)).trans hok

end

/-! ## Histories -/

/-- What happens to a node. -/
inductive Event where
  | reconcile (desired : DesiredSet) (conditions : Conditions)
  /-- The process ends, perhaps in the middle of a reconcile, and the next one opens the
  files that are there. -/
  | restart (disk : Disk) (stamp : String) (writeFails : Option String)

/-- A host with the policy of the last desired set that was applied. -/
structure Node where
  host : Host
  policy : SkillPolicy

def Node.fresh : Node := ⟨freshHost, defaultPolicy⟩

def Node.step (setup : Setup) (node : Node) : Event → Option Node
  | .reconcile desired conditions =>
    some ⟨(node.host.reconcile setup desired conditions).1,
      if node.host.inner.isNoop desired then node.policy else desired.policy⟩
  | .restart disk stamp writeFails =>
    match openHost setup.formats stamp writeFails disk with
    | .ok host => some ⟨host, node.policy⟩
    | .error _ => none

def Node.run (setup : Setup) (node : Node) (events : List Event) : Option Node :=
  events.foldlM (fun node event => node.step setup event) node

/-- Markers are read as they were printed, and nobody else writes to the store. -/
def Event.Allowed (formats : Formats) : Event → Prop
  | .reconcile desired _ => ∀ skill ∈ desired.skills, MarkerRead formats skill
  | .restart disk _ _ => SealedStore formats disk.store

/-- Every active skill runs with the limits of its manifest under the policy. -/
def Node.Clamped (formats : Formats) (node : Node) : Prop :=
  ∀ name entry, node.host.inner.skills.lookup name = some entry →
    entry.Clamped formats node.host.disk.store node.policy

/-- The limits do not depend on which way they came about: a skill that is desired and not
installed is one that both policies give the same limits, and a skill that is opened is
one that the policy gives the default limits. -/
def Node.Agrees (setup : Setup) (node : Node) : Event → Prop
  | .reconcile desired conditions =>
    node.host.inner.isNoop desired = false → ∀ name entry manifest,
      (node.host.begin desired).active.lookup name = some entry →
      (node.host.begin desired).Passes setup desired.policy name desired.skills conditions.attempts →
      storedManifest setup.formats node.host.disk.store entry.sha256 = some manifest →
      manifest.clamped desired.policy = manifest.clamped node.policy
  | .restart disk _ _ =>
    ∀ name skill manifest, disk.stated.skills.lookup name = some skill →
      verifyActive setup.formats disk.store skill.sha256 = .ok () →
      storedManifest setup.formats disk.store skill.sha256 = some manifest →
      manifest.clamped node.policy = openedLimits

section

variable {setup : Setup} {node node' : Node}

theorem step_sound {event : Event} (hallowed : event.Allowed setup.formats)
    (hstep : node.step setup event = some node')
    (h : Sound setup.formats node.host.disk.store node.host.inner.skills) :
    Sound setup.formats node'.host.disk.store node'.host.inner.skills := by
  cases event with
  | reconcile desired conditions =>
    cases hstep
    exact reconcile_sound hallowed h
  | restart disk stamp writeFails =>
    rw [Node.step] at hstep
    split at hstep
    · next host hopen =>
      cases hstep
      exact (openHost_reopens hopen).sound hallowed
    · cases hstep

/-- After a reconcile the limits are those of the policy exactly when they are for the
skills that it did not install. -/
theorem reconcile_clamped_iff (hlaws : setup.formats.Laws) {desired : DesiredSet}
    {conditions : Conditions} (hread : ∀ skill ∈ desired.skills, MarkerRead setup.formats skill)
    (hsound : Sound setup.formats node.host.disk.store node.host.inner.skills)
    (hclamped : node.Clamped setup.formats)
    (hstep : node.step setup (.reconcile desired conditions) = some node') :
    node'.Clamped setup.formats ↔ node.Agrees setup (.reconcile desired conditions) := by
  cases hstep
  cases hnoop : node.host.inner.isNoop desired with
  | true =>
    refine iff_of_true ?_ fun h => by rw [hnoop] at h; cases h
    unfold Node.Clamped
    rw [reconcile_of_noop hnoop]
    exact hclamped
  | false =>
    have hturns := @turns_limits setup desired.policy hlaws desired.skills conditions.attempts
      (node.host.begin desired) hread (begin_sound desired hsound)
    have hbegin : ∀ name entry, (node.host.begin desired).active.lookup name = some entry →
        node.host.inner.skills.lookup name = some entry := by
      intro name entry hentry
      rw [Host.begin, lookup_retained] at hentry
      split at hentry
      · exact hentry
      · cases hentry
    unfold Node.Clamped Node.Agrees
    rw [(reconcile_store hnoop).1, (reconcile_store hnoop).2, if_neg Bool.false_ne_true]
    constructor
    · intro hafter _ name entry manifest hentry hpasses hmanifest
      obtain ⟨hkeeps, hkept⟩ := (hturns name).1 hpasses
      obtain ⟨found, hfound, hlimits⟩ := hafter name entry (hkeeps.trans hentry)
      have hsame : storedManifest setup.formats (node.host.settled setup desired conditions).disk.store
          entry.sha256 = storedManifest setup.formats node.host.disk.store entry.sha256 :=
        storedManifest_congr (hkept entry hentry)
      cases hmanifest.symm.trans (hsame.symm.trans hfound)
      obtain ⟨before, hbefore, hlimits'⟩ := hclamped name entry (hbegin name entry hentry)
      cases hmanifest.symm.trans hbefore
      exact hlimits.symm.trans hlimits'
    · intro hagrees name entry hentry
      by_cases hpasses : (node.host.begin desired).Passes setup desired.policy name desired.skills
          conditions.attempts
      case pos =>
        obtain ⟨hkeeps, hkept⟩ := (hturns name).1 hpasses
        have hentry := hkeeps.symm.trans hentry
        obtain ⟨manifest, hmanifest, hlimits⟩ := hclamped name entry (hbegin name entry hentry)
        refine ⟨manifest, (storedManifest_congr (hkept entry hentry)).trans hmanifest, ?_⟩
        rw [hlimits]
        exact (hagrees hnoop name entry manifest hentry hpasses hmanifest).symm
      case neg =>
        obtain ⟨installed, hinstalled, hlimits⟩ := (hturns name).2 hpasses
        cases hentry.symm.trans hinstalled
        exact hlimits

theorem restart_clamped_iff {disk : Disk} {stamp : String} {writeFails : Option String}
    (hstep : node.step setup (.restart disk stamp writeFails) = some node') :
    node'.Clamped setup.formats ↔ node.Agrees setup (.restart disk stamp writeFails) := by
  rw [Node.step] at hstep
  split at hstep
  case h_2 => cases hstep
  case h_1 host hopen =>
    cases hstep
    have hreopens := openHost_reopens hopen
    constructor
    · intro hafter name skill manifest hskill hok hmanifest
      obtain ⟨found, hfound, hlimits⟩ := hafter name (openedSkill skill)
        ((hreopens.active name _).mpr ⟨skill, hskill, hok, rfl⟩)
      have hsame := @storedManifest_congr setup.formats _ _ _ (hreopens.kept _ hok)
      cases hmanifest.symm.trans (hsame.symm.trans hfound)
      exact hlimits.symm
    · intro hagrees name entry hentry
      obtain ⟨skill, hskill, hok, rfl⟩ := (hreopens.active name entry).mp hentry
      obtain ⟨manifest, hmanifest⟩ := storedManifest_of_verifyActive hok
      refine ⟨manifest, (storedManifest_congr (hreopens.kept _ hok)).trans hmanifest, ?_⟩
      exact (hagrees name skill manifest hskill hok hmanifest).symm

theorem step_clamped_iff (hlaws : setup.formats.Laws) {event : Event}
    (hallowed : event.Allowed setup.formats)
    (hsound : Sound setup.formats node.host.disk.store node.host.inner.skills)
    (hclamped : node.Clamped setup.formats) (hstep : node.step setup event = some node') :
    node'.Clamped setup.formats ↔ node.Agrees setup event := by
  cases event with
  | reconcile desired conditions => exact reconcile_clamped_iff hlaws hallowed hsound hclamped hstep
  | restart disk stamp writeFails => exact restart_clamped_iff hstep

theorem run_restart {desired : DesiredSet} {conditions : Conditions} {disk : Disk} {stamp : String}
    {writeFails : Option String} {host : Host}
    (hopen : openHost setup.formats stamp writeFails disk = .ok host) :
    node.run setup [.reconcile desired conditions, .restart disk stamp writeFails] =
      some ⟨host, if node.host.inner.isNoop desired then node.policy else desired.policy⟩ := by
  have hrestart : ∀ before : Node, before.step setup (.restart disk stamp writeFails) =
      some ⟨host, before.policy⟩ := by
    intro before
    rw [Node.step, hopen]
  rw [Node.run, List.foldlM_cons]
  refine Option.bind_eq_some_iff.mpr ⟨_, rfl, ?_⟩
  rw [List.foldlM_cons, hrestart]
  rfl

/-- Every event of a history agrees with the node it happens to. -/
def Node.AllAgree (setup : Setup) (node : Node) : List Event → Prop
  | [] => True
  | event :: events =>
    node.Agrees setup event ∧
      ∀ node', node.step setup event = some node' → node'.AllAgree setup events

theorem run_clamped_iff (hlaws : setup.formats.Laws) {events : List Event}
    (hallowed : ∀ event ∈ events, event.Allowed setup.formats)
    (hsound : Sound setup.formats node.host.disk.store node.host.inner.skills)
    (hclamped : node.Clamped setup.formats) (hrun : node.run setup events = some node') :
    (∀ past reached, past <+: events → node.run setup past = some reached →
      reached.Clamped setup.formats) ↔ node.AllAgree setup events := by
  induction events generalizing node with
  | nil =>
    refine iff_of_true (fun past reached hpast hreached => ?_) trivial
    cases List.prefix_nil.mp hpast
    cases hreached
    exact hclamped
  | cons event events ih =>
    rw [Node.run, List.foldlM_cons] at hrun
    obtain ⟨next, hstep, hrest⟩ := Option.bind_eq_some_iff.mp hrun
    have hevent := hallowed event List.mem_cons_self
    have hiff := step_clamped_iff hlaws hevent hsound hclamped hstep
    have hlater := fun hnext => @ih next (fun later hmem => hallowed later (.tail _ hmem))
      (step_sound hevent hstep hsound) hnext hrest
    have hcons : ∀ past, node.run setup (event :: past) = next.run setup past := by
      intro past
      rw [Node.run, List.foldlM_cons, hstep]
      rfl
    constructor
    · intro hall
      have hnext : next.Clamped setup.formats :=
        hall [event] next (List.prefix_cons_inj event |>.mpr (List.nil_prefix)) (hcons [])
      refine ⟨hiff.mp hnext, fun found hfound => ?_⟩
      cases hstep.symm.trans hfound
      exact (hlater hnext).mp fun past reached hpast hreached =>
        hall (event :: past) reached ((List.prefix_cons_inj event).mpr hpast)
          ((hcons past).trans hreached)
    · rintro ⟨hagrees, hall⟩ past reached hpast hreached
      cases past with
      | nil =>
        cases hreached
        exact hclamped
      | cons first past =>
        obtain ⟨rfl, htail⟩ := List.cons_prefix_cons.mp hpast
        exact (hlater (hiff.mpr hagrees)).mpr (hall next hstep) past reached htail
          ((hcons past).symm.trans hreached)

end

/-- A history of reconciles and restarts leaves every active skill with the limits of its
manifest under the last applied policy exactly when, at every event, the limits do not
depend on which way they came about. -/
theorem limits_clamped_iff {setup : Setup} (hlaws : setup.formats.Laws) {events : List Event}
    (hallowed : ∀ event ∈ events, event.Allowed setup.formats) {last : Node}
    (hrun : Node.fresh.run setup events = some last) :
    (∀ past reached, past <+: events → Node.fresh.run setup past = some reached →
      reached.Clamped setup.formats) ↔ Node.fresh.AllAgree setup events := by
  refine run_clamped_iff hlaws hallowed ⟨?_, ?_⟩ ?_ hrun
  · exact fun _ _ h => by cases h
  · exact fun _ _ h => by cases h
  · exact fun _ _ h => by cases h

/-- A package without limits is installed, and the host starts again. -/
def servedHistory : List Event :=
  [.reconcile (desiredOne 1 [uptimeSkill]) serving,
    .restart (freshHost.reconcile uptimeSetup (desiredOne 1 [uptimeSkill]) serving).1.disk "0" none]

theorem limits_clamped_iff_served :
    (∀ past reached, past <+: servedHistory → Node.fresh.run uptimeSetup past = some reached →
      reached.Clamped uptimeSetup.formats) ↔ Node.fresh.AllAgree uptimeSetup servedHistory := by
  have hlaws : uptimeSetup.formats.Laws := by
    obtain ⟨hdocument, hversion⟩ := uptimeFormats_laws widerPackage uptimeSha256
      (uptimeToml "" "grant = \"fs.read:/**\"\n") widerMembers
    exact ⟨hdocument, hversion⟩
  have hread : ∀ skill ∈ (desiredOne 1 [uptimeSkill]).skills, MarkerRead uptimeSetup.formats skill := by
    intro skill hskill
    cases List.mem_singleton.mp hskill
    rfl
  have hopens : (openHost uptimeSetup.formats "0" none (freshHost.reconcile uptimeSetup
      (desiredOne 1 [uptimeSkill]) serving).1.disk).isOk = true := by decide +kernel
  cases hopen : openHost uptimeSetup.formats "0" none (freshHost.reconcile uptimeSetup
      (desiredOne 1 [uptimeSkill]) serving).1.disk with
  | error err =>
    rw [hopen] at hopens
    cases hopens
  | ok host =>
    refine @limits_clamped_iff uptimeSetup hlaws servedHistory ?_ ⟨host, defaultPolicy⟩ ?_
    · intro event hevent
      rcases List.mem_cons.mp hevent with rfl | hevent
      · exact hread
      · cases List.mem_singleton.mp hevent
        exact (@reconcile_sound uptimeSetup freshHost (desiredOne 1 [uptimeSkill]) serving hread
          ⟨fun _ _ h => (by cases h), fun _ _ h => (by cases h)⟩).stored
    · exact run_restart hopen

/-! ## A restart -/

/-- A package with `limits.timeout_ms = 5000`. -/
def limitedPackage : Bytes :=
  [31, 139, 8, 0, 0, 0, 0, 0, 2, 3, 237, 212, 93, 110, 156, 48, 16, 0, 96, 250, 106, 169, 119, 88,
   249, 0, 196, 3, 198, 64, 165, 72, 185, 7, 90, 69, 99, 176, 85, 55, 54, 94, 97, 72, 82, 69, 185,
   123, 205, 70, 74, 211, 188, 119, 83, 53, 243, 189, 216, 12, 242, 128, 127, 198, 233, 206, 121,
   95, 174, 49, 248, 226, 175, 17, 153, 146, 242, 220, 102, 239, 91, 209, 40, 245, 218, 127, 137,
   183, 173, 106, 139, 131, 40, 46, 96, 75, 43, 46, 249, 147, 197, 231, 148, 198, 239, 38, 224, 237,
   189, 89, 146, 139, 243, 225, 250, 0, 108, 198, 96, 114, 135, 111, 167, 213, 5, 195, 217, 239,
   119, 28, 74, 81, 10, 206, 78, 30, 87, 27, 151, 144, 114, 108, 224, 222, 205, 219, 227, 21, 134,
   73, 73, 126, 100, 195, 178, 205, 251, 184, 35, 187, 115, 243, 180, 15, 122, 192, 20, 56, 67, 237,
   246, 135, 57, 222, 235, 184, 126, 75, 251, 177, 187, 1, 206, 188, 11, 110, 77, 229, 62, 34, 110,
   235, 237, 57, 101, 147, 15, 1, 27, 172, 243, 38, 29, 25, 15, 113, 218, 188, 41, 207, 89, 246, 12,
   149, 52, 104, 107, 89, 247, 168, 196, 216, 171, 86, 201, 81, 218, 106, 236, 43, 20, 216, 129,
   110, 42, 61, 73, 107, 154, 169, 209, 61, 88, 209, 11, 232, 36, 10, 171, 100, 167, 52, 104, 91,
   245, 156, 241, 151, 73, 95, 157, 112, 193, 144, 202, 31, 41, 206, 231, 204, 82, 66, 173, 44, 214,
   77, 163, 107, 213, 118, 8, 32, 21, 78, 160, 108, 107, 58, 37, 123, 211, 75, 171, 165, 29, 43,
   176, 166, 205, 161, 26, 196, 40, 84, 78, 13, 35, 162, 181, 29, 114, 54, 12, 35, 158, 242, 76,
   189, 91, 93, 254, 249, 227, 235, 90, 166, 159, 169, 116, 179, 141, 229, 98, 112, 226, 236, 223,
   217, 255, 55, 171, 251, 97, 245, 47, 64, 252, 89, 255, 32, 0, 42, 170, 255, 139, 200, 27, 255,
   181, 248, 82, 144, 207, 124, 255, 191, 189, 10, 63, 160, 254, 69, 245, 174, 254, 161, 110, 106,
   170, 255, 75, 120, 122, 166, 26, 32, 132, 16, 66, 8, 33, 132, 16, 66, 8, 33, 132, 16, 66, 8, 33,
   132, 144, 255, 193, 47, 91, 254, 11, 151, 0, 40, 0, 0]

def limitedSha256 : String := "2e92c17a45d5d19b2ee294d6a8deea3bd3b9e3e48b217f58fbd7085bab083bab"

def limitedSkill : DesiredSkill :=
  { uptimeSkill with sha256 := limitedSha256, sizeBytes := limitedPackage.length }

/-- A node for `limitedPackage`. -/
def limitedSetup : Setup where
  formats := { uptimeFormats limitedPackage limitedSha256 (uptimeToml "limits.timeout_ms = 5000\n" "")
      (uptimeDocument [("limits", .table [("timeout_ms", .int 5000)])] []) with
    json.parse := fun _ => some (marker "uptime" limitedSha256 "1.0.0")
    json.print := fun _ => "\x7b\"name\":\"uptime\",\"sha256\":\"" ++ limitedSha256 ++
      "\",\"version\":\"1.0.0\"\x7d" }
  limits := uptimeSetup.limits
  compile := uptimeSetup.compile
  engineId := uptimeSetup.engineId
  platform := uptimeSetup.platform

def limitedServing : Conditions :=
  ⟨fun _ _ => { refusedAttempt with
    fetch := fun offset => .ok ⟨limitedPackage.length, limitedPackage.drop offset⟩ }, none⟩

def limitedHost : Host :=
  (freshHost.reconcile limitedSetup (desiredOne 1 [limitedSkill]) limitedServing).1

/-- The host starts again, and the skill runs with the default timeout in the place of the
one of its manifest. -/
theorem restart_forgets_limits :
    ∃ reached, Node.fresh.run limitedSetup [.reconcile (desiredOne 1 [limitedSkill]) limitedServing,
        .restart limitedHost.disk "0" none] = some reached ∧
      (limitedHost.inner.skills.lookup "uptime").map (·.timeoutMs) = some 5000 ∧
      (reached.host.inner.skills.lookup "uptime").map (·.timeoutMs) = some 30000 ∧
      ¬ reached.Clamped limitedSetup.formats := by
  have hopens : (openHost limitedSetup.formats "0" none limitedHost.disk).toOption.map
      (fun host => (host.inner.skills.lookup "uptime").map fun entry => (entry.timeoutMs, entry.sha256)) =
        some (some (30000, limitedSha256)) := by decide +kernel
  have hmanifest : (openHost limitedSetup.formats "0" none limitedHost.disk).toOption.map
      (fun host => (storedManifest limitedSetup.formats host.disk.store limitedSha256).map
        fun manifest => (manifest.clamped defaultPolicy).timeoutMs) = some (some 5000) := by
    decide +kernel
  cases hopen : openHost limitedSetup.formats "0" none limitedHost.disk with
  | error err =>
    rw [hopen] at hopens
    cases hopens
  | ok host =>
    rw [hopen] at hopens hmanifest
    have hentry : (host.inner.skills.lookup "uptime").map
        (fun entry => (entry.timeoutMs, entry.sha256)) = some (30000, limitedSha256) :=
      Option.some.inj hopens
    have hstored : (storedManifest limitedSetup.formats host.disk.store limitedSha256).map
        (fun manifest => (manifest.clamped defaultPolicy).timeoutMs) = some 5000 :=
      Option.some.inj hmanifest
    refine ⟨⟨host, defaultPolicy⟩, ?_, by decide +kernel, ?_, fun hclamped => ?_⟩
    · exact run_restart hopen
    · dsimp only
      obtain ⟨entry, hlookup, heq⟩ := Option.map_eq_some_iff.mp hentry
      rw [hlookup, Option.map_some, (Prod.mk.inj heq).1]
    · obtain ⟨entry, hlookup, heq⟩ := Option.map_eq_some_iff.mp hentry
      obtain ⟨htimeout, hsha⟩ := Prod.mk.inj heq
      obtain ⟨manifest, hfound, hlimits⟩ := hclamped "uptime" entry hlookup
      rw [hsha] at hfound
      dsimp only at hfound hlimits
      rw [hfound, Option.map_some, Option.some.injEq, ← hlimits] at hstored
      have hsame : entry.timeoutMs = 5000 := hstored
      omega

end Novbot.Skills
