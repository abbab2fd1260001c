import Novbot.Skills.Clamped

/-!
# The modules of active skills

Whether the module of a skill that becomes or stays active is the one of its manifest, and the
manifest the one of the desired version.  A package that is fetched was checked for both.  A
store directory that is used again was checked for its marker only, and one that is opened for
its marker and its module.
-/

namespace Novbot.Skills

open Novbot.Package Text

/-- The module of a package in the store. -/
def storedModule (store : SortedMap String Directory) (sha256 : String) : Option Bytes := do
  (← store.lookup sha256).lookup "module.wasm"

/-- The manifest in the store is for this version, and the module is the one that it names. -/
def Genuine (formats : Formats) (store : SortedMap String Directory) (sha256 name version : String) :
    Prop :=
  ∃ manifest wasm, storedManifest formats store sha256 = some manifest ∧
    storedModule store sha256 = some wasm ∧
    manifest.files.lookup "module.wasm" = some (formats.sha256 wasm) ∧
    manifest.name = name ∧ manifest.version = version

/-- The manifest in the store is for this version. -/
def Titled (formats : Formats) (store : SortedMap String Directory) (sha256 name version : String) :
    Prop :=
  ∃ manifest, storedManifest formats store sha256 = some manifest ∧ manifest.name = name ∧
    manifest.version = version

section

variable {formats : Formats} {store : SortedMap String Directory} {sha256 name version : String}

theorem storedManifest_eq_some_iff {manifest : Manifest} :
    storedManifest formats store sha256 = some manifest ↔ ∃ dir text,
      store.lookup sha256 = some dir ∧ readText dir "skill.toml" = some text ∧
      parseManifest formats text = .ok manifest := by
  constructor
  · intro h
    obtain ⟨dir, hdir, h⟩ := Option.bind_eq_some_iff.mp h
    obtain ⟨text, htext, h⟩ := Option.bind_eq_some_iff.mp h
    refine ⟨dir, text, hdir, htext, ?_⟩
    cases hparse : parseManifest formats text with
    | error err =>
      rw [hparse] at h
      cases h
    | ok found =>
      rw [hparse] at h
      cases h
      rfl
  · rintro ⟨dir, text, hdir, htext, hparse⟩
    exact storedManifest_eq_some hdir htext hparse

/-- What the verification of a directory with its marker says. -/
theorem verifyActive_iff (hverified : storeVerified formats store sha256 = true) :
    verifyActive formats store sha256 = .ok () ↔
      ∃ manifest wasm, storedManifest formats store sha256 = some manifest ∧
        storedModule store sha256 = some wasm ∧
        manifest.files.lookup "module.wasm" = some (formats.sha256 wasm) := by
  obtain ⟨dir, hdir, -⟩ := (storeVerified_iff _).mp hverified
  have hmodule : storedModule store sha256 = dir.lookup "module.wasm" := by
    rw [storedModule, hdir]
    rfl
  unfold verifyActive
  rw [hverified, hdir, hmodule]
  dsimp only
  constructor
  · intro h
    cases htext : readText dir "skill.toml" with
    | none =>
      rw [htext] at h
      cases h
    | some text =>
      rw [htext] at h
      obtain ⟨hash, hhash, h⟩ := Check.bind_eq_ok.mp h
      obtain ⟨manifest, hmanifest, hlisted⟩ := Check.bind_eq_ok.mp hhash
      cases hwasm : dir.lookup "module.wasm" with
      | none =>
        rw [hwasm] at h
        cases h
      | some wasm =>
        rw [hwasm] at h
        dsimp only at h
        refine ⟨manifest, wasm, storedManifest_eq_some hdir htext hmanifest, rfl, ?_⟩
        have hsame : formats.sha256 wasm = hash := by
          by_contra hne
          rw [if_pos hne] at h
          cases h
        split at hlisted
        · next found hfound =>
          cases hlisted
          rw [hfound, hsame]
        · cases hlisted
  · rintro ⟨manifest, wasm, hmanifest, hwasm, hlisted⟩
    obtain ⟨found, text, hfound, htext, hparse⟩ := storedManifest_eq_some_iff.mp hmanifest
    cases hdir.symm.trans hfound
    rw [htext]
    refine Check.bind_eq_ok.mpr ⟨formats.sha256 wasm, Check.bind_eq_ok.mpr ⟨manifest, hparse, ?_⟩, ?_⟩
    · rw [hlisted]
      rfl
    · rw [hwasm]
      exact if_neg (not_not.mpr rfl)

theorem genuine_iff (hverified : storeVerified formats store sha256 = true) :
    Genuine formats store sha256 name version ↔
      verifyActive formats store sha256 = .ok () ∧ Titled formats store sha256 name version := by
  rw [verifyActive_iff hverified]
  constructor
  · rintro ⟨manifest, wasm, hmanifest, hwasm, hlisted, hname, hversion⟩
    exact ⟨⟨manifest, wasm, hmanifest, hwasm, hlisted⟩, manifest, hmanifest, hname, hversion⟩
  · rintro ⟨⟨manifest, wasm, hmanifest, hwasm, hlisted⟩, found, hfound, hname, hversion⟩
    cases hmanifest.symm.trans hfound
    exact ⟨manifest, wasm, hmanifest, hwasm, hlisted, hname, hversion⟩

theorem Genuine.congr {store' : SortedMap String Directory}
    (h : store'.lookup sha256 = store.lookup sha256) :
    Genuine formats store' sha256 name version ↔ Genuine formats store sha256 name version := by
  rw [Genuine, Genuine, storedManifest_congr h, storedModule, storedModule, h]

end

/-! ## Installs -/

section

variable {setup : Setup} {attempt : Attempt} {skill : DesiredSkill}

/-- A package that was fetched for a version. -/
theorem sealed_genuine {store store' : SortedMap String Directory} {package : Package} {bytes : Bytes}
    (hopened : openPackage setup.formats bytes skill.name skill.version = .ok package)
    (hstored : sealStore setup.formats attempt skill package store = (.ok (), store')) :
    Genuine setup.formats store' skill.sha256 skill.name skill.version := by
  obtain ⟨-, -, hmodule, hexpected, document, chars, hdocument, hchars, hparse⟩ :=
    loadPackageInner_ok hopened
  obtain ⟨wasm, hwasm⟩ := Option.isSome_iff_exists.mp hmodule
  have hdir := sealStore_own hstored
  have htext : ∀ {files : Directory}, files.lookup "skill.toml" = some document →
      readText files "skill.toml" = some (.ofList chars) := by
    intro files hfiles
    rw [readText, hfiles, Option.bind_some, hchars]
    rfl
  have hhash := openPackage_module hopened hwasm (htext hdocument)
  obtain ⟨manifest, hmanifest, hlisted⟩ := Check.bind_eq_ok.mp hhash
  cases hparse.symm.trans hmanifest
  refine ⟨package.manifest, wasm, storedManifest_eq_some hdir (htext ?_) hparse, ?_, ?_, ?_⟩
  · rw [sealedFiles_lookup (by decide) (by decide)]
    exact hdocument
  · rw [storedModule, hdir]
    exact (sealedFiles_lookup (by decide) (by decide)).trans hwasm
  · split at hlisted
    · next found hfound =>
      cases hlisted
      exact hfound
    · cases hlisted
  · unfold checkExpected at hexpected
    dsimp only at hexpected
    split at hexpected
    · cases hexpected
    · next hsame =>
      rw [not_or, not_not, not_not] at hsame
      exact hsame

/-- An install that uses a store directory again is right about it exactly when it is what the
other checks would let pass. -/
theorem install_genuine_iff {policy : SkillPolicy} {active : ActiveSkills} {disk disk' : Disk}
    {installed : ActiveSkill}
    (h : tryInstall setup attempt skill policy active disk = (.ok installed, disk')) :
    Genuine setup.formats disk'.store installed.sha256 skill.name installed.version ↔
      (storeVerified setup.formats disk.store skill.sha256 = true →
        verifyActive setup.formats disk.store skill.sha256 = .ok () ∧
          Titled setup.formats disk.store skill.sha256 skill.name skill.version) := by
  rcases tryInstall_cases h with ⟨⟨err, herr⟩, -⟩ | ⟨limits, mid, -, hstored, hok, rfl⟩
  · cases herr
  · cases hok
    have hown : shaReferenced skill active skill.sha256
        (activate attempt skill policy active limits mid).1.previous = true := by
      simp [shaReferenced]
    have hkept : (activate attempt skill policy active limits mid).2.store.lookup skill.sha256 =
        mid.store.lookup skill.sha256 := by
      rw [activate_store]
      exact removeDropped_referenced hown
    show Genuine _ _ skill.sha256 _ skill.version ↔ _
    rw [Genuine.congr hkept]
    cases hstored with
    | reused dir hverified _ _ _ _ hsame =>
      rw [hsame, genuine_iff hverified]
      exact ⟨fun hboth _ => hboth, fun hboth => hboth hverified⟩
    | sealed package bytes hverified hopened _ hseal =>
      refine iff_of_true (sealed_genuine hopened hseal) fun hagain => ?_
      rw [hverified] at hagain
      cases hagain

end

/-! ## Opening -/

section

variable {formats : Formats} {stamp : String} {writeFails : Option String} {disk : Disk} {host : Host}

theorem open_genuine_iff (h : openHost formats stamp writeFails disk = .ok host) :
    (∀ name entry, host.inner.skills.lookup name = some entry →
      Genuine formats host.disk.store entry.sha256 name entry.version) ↔
    ∀ name skill, disk.stated.skills.lookup name = some skill →
      verifyActive formats disk.store skill.sha256 = .ok () →
      Titled formats disk.store skill.sha256 name skill.version := by
  have hreopens := openHost_reopens h
  constructor
  · intro hall name skill hskill hok
    have hgenuine := hall name (openedSkill skill)
      ((hreopens.active name _).mpr ⟨skill, hskill, hok, rfl⟩)
    have hbefore := (Genuine.congr (hreopens.kept _ hok)).mp hgenuine
    exact ((genuine_iff (storeVerified_of_verifyActive hok)).mp hbefore).2
  · intro hall name entry hentry
    obtain ⟨skill, hskill, hok, rfl⟩ := (hreopens.active name entry).mp hentry
    have hverified := storeVerified_of_verifyActive hok
    exact (Genuine.congr (hreopens.kept _ hok)).mpr
      ((genuine_iff hverified).mpr ⟨hok, hall name skill hskill hok⟩)

end

/-! ## Both -/

/-- A disk whose module was altered after an install. -/
def alteredDisk : Disk :=
  { Disk.empty with
    store := .ofList [(uptimeSha256, .ofList [("module.wasm", [0x00]),
      ("skill.toml", utf8 (uptimeToml "" "grant = \"fs.read:/**\"\n")),
      (markerPath, markerBytes uptimeSetup.formats uptimeSkill)])] }

end Novbot.Skills
