import Novbot.Lib.Check
import Novbot.Desired.Plans
import Novbot.Skills.Reconcile

/-!
# Platforms at the center and on a node

An install is refused for the platform of a node twice: by the center, from the labels of
the node (`platformUnsupported`), and by the node, once it has opened the package.  The
center lets every node have a version without platforms and knows a second spelling of a
platform, and the node does neither (`platforms_agree_iff`).
-/

namespace Novbot.Package

open Check

variable {ε : Type} {p : ε → Prop}

/-! ## Errors of a package -/

theorem normalizeRel_errors {fail : String → ε} (hfail : ∀ detail, p (fail detail)) (path : Bytes) :
    Errors p (normalizeRel fail path) := by
  have hpart : ∀ part, Errors p (normalPart fail part) := by
    intro part
    unfold normalPart
    split
    · exact .error (hfail _)
    · split
      · exact .error (hfail _)
      · split
        · exact .error (hfail _)
        · exact .ok _
  unfold normalizeRel
  simp only [throw_bind]
  refine .ite (hfail _) ((Errors.mapM hpart _).bind fun parts => ?_)
  exact .ite (hfail _) (.pure _)

/-- What the rules of a reader fail with. -/
structure UnpackRules.Fails (rules : UnpackRules ε) (p : ε → Prop) : Prop where
  fail : ∀ detail, p (rules.fail detail)
  checkDirectory : ∀ path, Errors p (rules.checkDirectory path)
  checkFile : ∀ path, Errors p (rules.checkFile path)

variable {rules : UnpackRules ε}

theorem isDirectory_errors (hrules : rules.Fails p) (kind : EntryType) :
    Errors p (rules.isDirectory kind) := by
  unfold UnpackRules.isDirectory
  split
  · exact .ok _
  · split
    · exact .ok _
    all_goals exact .error (hrules.fail _)

theorem unpackEntries_errors (hrules : rules.Fails p) (entries : List (Except String Entry))
    (count total : Nat) (files : SortedMap String Bytes) :
    Errors p (unpackEntries rules entries count total files) := by
  induction entries generalizing count total files with
  | nil => exact .ok _
  | cons entry entries ih =>
    unfold unpackEntries
    simp only [throw_bind]
    refine (Errors.mapError fun _ => hrules.fail _).bind fun entry => ?_
    refine .ite (hrules.fail _) ((isDirectory_errors hrules _).bind fun directory => ?_)
    refine (Errors.mapError fun _ => hrules.fail _).bind fun raw => ?_
    refine (normalizeRel_errors hrules.fail _).bind fun path => ?_
    split
    · exact (hrules.checkDirectory path).bind fun _ => ih _ _ _
    · refine (hrules.checkFile path).bind fun _ => ?_
      refine (Errors.mapError fun _ => hrules.fail _).bind fun declared => ?_
      refine .ite (hrules.fail _) (.ite (hrules.fail _) ?_)
      refine (Errors.mapError fun _ => hrules.fail _).bind fun data => ?_
      exact .ite (hrules.fail _) (.ite (hrules.fail _) (.ite (hrules.fail _) (ih _ _ _)))

theorem unpackWith_errors (hrules : rules.Fails p) (formats : Formats) (bytes : Bytes) :
    Errors p (unpackWith rules formats bytes) := by
  unfold unpackWith
  exact (Errors.mapError fun _ => hrules.fail _).bind fun _ => unpackEntries_errors hrules _ _ _ _

theorem verifyHashes_errors {sha256 : Bytes → String} {archiveError manifestError : String → ε}
    (harchive : ∀ detail, p (archiveError detail)) (hmanifest : ∀ detail, p (manifestError detail))
    (files : SortedMap String Bytes) (declared : SortedMap String String) :
    Errors p (verifyHashes sha256 archiveError manifestError files declared) := by
  have hone : ∀ path hash, Errors p (verifyHash sha256 archiveError manifestError files path hash) := by
    intro path hash
    unfold verifyHash
    split
    · exact .error (hmanifest _)
    · split
      · exact .error (harchive _)
      · split
        · exact .error (harchive _)
        · exact .ok _
  unfold verifyHashes
  refine Errors.bind ?_ fun _ => .ite (harchive _) (.pure _)
  refine Errors.forM ?_ _
  rintro ⟨path, hash⟩
  exact hone path hash

theorem declaredFiles_errors {normalize : String → Except ε String} {duplicate : String → ε}
    (hnormalize : ∀ path, Errors p (normalize path)) (hduplicate : ∀ path, p (duplicate path))
    (files : SortedMap String String) : Errors p (declaredFiles normalize duplicate files) := by
  refine Errors.foldlM ?_ _ _
  rintro declared ⟨path, hash⟩
  refine (hnormalize _).bind fun normalized => ?_
  exact .ite (hduplicate _) (.pure _)

end Novbot.Package

namespace Novbot.Skills

open Novbot.Package Check

/-! ## The check of the node -/

/-- The error is not `platform_unsupported`. -/
def InstallError.Other (err : InstallError) : Prop := err.reason ≠ .platformUnsupported

theorem archiveError_other (detail : String) : (archiveError detail).Other := fun h => by cases h

theorem manifestError_other (detail : String) : (manifestError detail).Other := fun h => by cases h

theorem unpackRules_other : unpackRules.Fails InstallError.Other where
  fail := archiveError_other
  checkDirectory _ := .ok ()
  checkFile path := by
    unfold unpackRules
    dsimp only
    split
    · exact .error (archiveError_other _)
    · exact .ok ()

variable (formats : Formats)

theorem parseManifest_other (text : String) : Errors InstallError.Other (parseManifest formats text) := by
  unfold parseManifest
  simp only [throw_bind]
  refine (Errors.mapError fun _ => manifestError_other _).bind fun raw => ?_
  refine .ite (manifestError_other _) (.ite (manifestError_other _) (.ite (manifestError_other _) ?_))
  refine Errors.bind (declaredFiles_errors ?_ (fun _ => manifestError_other _) _) fun files => ?_
  · exact fun path => normalizeRel_errors archiveError_other _
  · refine Errors.bind (Errors.mapM (fun cap => ?_) _) fun grants => .pure _
    unfold grantString
    split
    · exact .ok _
    · split
      · exact .error (manifestError_other _)
      · split
        · exact .ok _
        · exact .ok _

theorem openPackage_other (bytes : Bytes) (name version : String) :
    Errors InstallError.Other (openPackage formats bytes name version) := by
  unfold openPackage loadPackageInner
  simp only [throw_bind]
  refine .ite (archiveError_other _) ?_
  refine (unpackWith_errors unpackRules_other formats bytes).bind fun files => ?_
  split
  · split
    · refine (parseManifest_other formats _).bind fun manifest => ?_
      refine Errors.bind ?_ fun _ => ?_
      · unfold checkExpected
        dsimp only
        split
        · exact .error (manifestError_other _)
        · exact .ok ()
      · refine .ite (fun h => by cases h) ?_
        refine Errors.bind (verifyHashes_errors archiveError_other manifestError_other _ _) fun _ => ?_
        refine .ite (manifestError_other _) ?_
        refine Errors.bind (Errors.forM (fun grant => ?_) _) fun _ => .pure _
        unfold checkGrant
        split
        · exact .ok ()
        · exact .error fun h => by cases h
    · exact .error (manifestError_other _)
  · exact .error (manifestError_other _)

theorem fetchPackage_other (sha256 : Bytes → String) (attempt : Attempt) (skill : DesiredSkill)
    (part : Option Bytes) :
    Errors InstallError.Other (fetchPackage sha256 attempt skill part).outcome := by
  have hfetch : ∀ detail, (fetchFailed detail).Other := fun _ h => by cases h
  have htake : ∀ fetched content file,
      Errors InstallError.Other (takePackage sha256 attempt skill fetched content file).1 := by
    intro fetched content file
    unfold takePackage
    split
    · exact .error (hfetch _)
    · split
      · exact .error fun h => by cases h
      · split
        · exact .error (hfetch _)
        · exact .ok _
  have hstore : ∀ part fetched,
      Errors InstallError.Other (storeFetched sha256 attempt skill part fetched).1 := by
    intro part fetched
    unfold storeFetched
    split
    · exact .error (hfetch _)
    · split
      · exact .error (hfetch _)
      · exact htake _ _ _
  unfold fetchPackage
  split
  · exact .error (hfetch _)
  · split
    · exact .ok _
    · dsimp only
      split
      · exact .error (hfetch _)
      · exact hstore _ _

variable (setup : Setup) (attempt : Attempt) (skill : DesiredSkill)

theorem readPackage_other (store : SortedMap String Directory) (package : Option Package) :
    Errors InstallError.Other (readPackage setup attempt skill store package) := by
  unfold readPackage
  split
  · split
    · exact .ok _
    · exact .error (manifestError_other _)
  · refine Errors.bind ?_ fun wasm => Errors.bind ?_ fun limits => .pure _
    · unfold readModule
      split
      · exact .ok _
      · exact .error fun h => by cases h
      · exact .error fun h => by cases h
    · unfold readStoredManifest
      split
      · exact .mapError fun _ => manifestError_other _
      · exact .error (manifestError_other _)
      · exact .error (manifestError_other _)

theorem ensureCache_other (wasm : Bytes) (disk : Disk) :
    Errors InstallError.Other (ensureCache setup attempt skill wasm disk).1 := by
  unfold ensureCache
  dsimp only
  split
  · exact .ok ()
  · split
    · exact .error fun h => by cases h
    · split
      · exact .error fun h => by cases h
      · exact .ok ()

theorem sealPackage_other (package : Option Package) (disk : Disk) :
    Errors InstallError.Other (sealPackage setup attempt skill package disk).1 := by
  have hseal : ∀ package,
      Errors InstallError.Other (sealStore setup.formats attempt skill package disk.store).1 := by
    intro package
    unfold sealStore
    dsimp only
    split
    · exact .error (archiveError_other _)
    · split
      · exact .error (archiveError_other _)
      · split
        · exact .error (archiveError_other _)
        · split
          · exact .error (archiveError_other _)
          · split
            · exact .error (archiveError_other _)
            · exact .ok ()
  cases package with
  | none => exact .ok ()
  | some package => exact hseal package

/-- An attempt that takes the package from its source and opens it. -/
structure Opens (policy : SkillPolicy) (disk : Disk) (package : Package) : Prop where
  abi : skill.abi = abi
  room : storeHasRoom setup.formats disk.store skill.sha256 skill.sizeBytes policy.storeQuotaBytes = true
  missing : storeVerified setup.formats disk.store skill.sha256 = false
  opened : ∃ bytes,
    (fetchPackage setup.formats.sha256 attempt skill (disk.downloads.lookup skill.sha256)).outcome =
      .ok bytes ∧ openPackage setup.formats bytes skill.name skill.version = .ok package

/-- The check of a fetched package is the only step that can fail for the platform. -/
theorem checkFetched_other_iff (bytes : Bytes) :
    Errors InstallError.Other (checkFetched setup skill bytes) ↔ ∀ package,
      openPackage setup.formats bytes skill.name skill.version = .ok package →
        setup.platform ∈ package.manifest.platforms := by
  have hother := openPackage_other setup.formats bytes skill.name skill.version
  unfold checkFetched
  cases hopened : openPackage setup.formats bytes skill.name skill.version with
  | error err =>
    constructor
    · rintro - package ⟨⟩
    · exact fun _ => .error (hother err hopened)
  | ok package =>
    constructor
    · intro herrors package' hok
      cases hok
      by_contra hmem
      have hnot : (!package.manifest.platforms.contains setup.platform) = true := by simpa using hmem
      refine herrors ⟨.platformUnsupported, _⟩ (if_pos hnot) rfl
    · intro hplatform
      have hmem : (!package.manifest.platforms.contains setup.platform) = false := by
        simpa using hplatform package rfl
      intro err herr
      refine absurd herr ?_
      show (if (!package.manifest.platforms.contains setup.platform) = true then throw _
        else pure package) ≠ Except.error err
      rw [if_neg (ne_true_of_eq_false hmem)]
      exact fun h => by cases h

variable (policy : SkillPolicy) (active : ActiveSkills) (disk : Disk)

theorem obtainPackage_other_iff :
    Errors InstallError.Other (obtainPackage setup attempt skill disk).1 ↔
      (storeVerified setup.formats disk.store skill.sha256 = false → ∀ bytes package,
        (fetchPackage setup.formats.sha256 attempt skill (disk.downloads.lookup skill.sha256)).outcome =
          .ok bytes → openPackage setup.formats bytes skill.name skill.version = .ok package →
        setup.platform ∈ package.manifest.platforms) := by
  have hfetch := fetchPackage_other setup.formats.sha256 attempt skill
    (disk.downloads.lookup skill.sha256)
  unfold obtainPackage
  dsimp only
  cases hverified : storeVerified setup.formats disk.store skill.sha256 with
  | true =>
    constructor
    · exact fun _ hmissing => by cases hmissing
    · exact fun _ => .ok none
  | false =>
    cases houtcome : (fetchPackage setup.formats.sha256 attempt skill
        (disk.downloads.lookup skill.sha256)).outcome with
    | error err =>
      constructor
      · exact fun _ _ bytes package hbytes => by cases hbytes
      · exact fun _ => .error (hfetch err houtcome)
    | ok bytes =>
      constructor
      · intro herrors _ bytes' package hbytes hopened
        cases hbytes
        refine (checkFetched_other_iff setup skill bytes).mp (fun err herr => ?_) package hopened
        refine herrors err ?_
        show (checkFetched setup skill bytes).map some = .error err
        rw [herr]
        rfl
      · intro hplatform
        refine Errors.map ((checkFetched_other_iff setup skill bytes).mpr fun package hopened => ?_) some
        exact hplatform rfl bytes package rfl hopened

/-- A node refuses a package for its platform when it opens one that does not list it. -/
theorem tryInstall_other_iff :
    Errors InstallError.Other (tryInstall setup attempt skill policy active disk).1 ↔
      ∀ package, Opens setup attempt skill policy disk package →
        setup.platform ∈ package.manifest.platforms := by
  have hobtain := obtainPackage_other_iff setup attempt skill disk
  unfold tryInstall
  split
  · next habi =>
    constructor
    · exact fun _ package hopens => absurd hopens.abi habi
    · exact fun _ => .error fun h => by cases h
  · next habi =>
    split
    · next hroom =>
      constructor
      · intro _ package hopens
        rw [hopens.room] at hroom
        cases hroom
      · exact fun _ => .error fun h => by cases h
    · next hroom =>
      rw [Bool.not_eq_true, Bool.not_eq_false'] at hroom
      have hiff : Errors InstallError.Other (obtainPackage setup attempt skill disk).1 ↔
          ∀ package, Opens setup attempt skill policy disk package →
            setup.platform ∈ package.manifest.platforms := by
        rw [hobtain]
        constructor
        · rintro h package ⟨-, -, hmissing, bytes, hbytes, hopened⟩
          exact h hmissing bytes package hbytes hopened
        · intro h hmissing bytes package hbytes hopened
          exact h package ⟨not_not.mp habi, hroom, hmissing, bytes, hbytes, hopened⟩
      rw [← hiff]
      -- Past the check no step can fail for the platform.
      split
      · next err disk' hobtained =>
        rw [hobtained]
        exact errors_error_iff.trans errors_error_iff.symm
      · next package disk' hobtained =>
        rw [hobtained]
        refine ⟨fun _ => .ok package, fun _ => ?_⟩
        have hread := readPackage_other setup attempt skill disk'.store package
        split
        · next err hfailed => exact .error (hread err hfailed)
        · next wasm limits _ =>
          have hcache := ensureCache_other setup attempt skill wasm disk'
          split
          · next err disk'' hfailed => exact .error (hcache err (by rw [hfailed]))
          · next disk'' _ =>
            have hseal := sealPackage_other setup attempt skill package disk''
            split
            · next err _ hfailed => exact .error (hseal err (by rw [hfailed]))
            · exact .ok _

end Novbot.Skills

namespace Novbot.Desired

open Novbot.Package Check

/-! ## The check of the center -/

/-- `std::env::consts` of a node. -/
structure Consts where
  os : String
  arch : String

def currentPlatform (consts : Consts) : String :=
  let arch :=
    if consts.arch = "x86_64" then "amd64"
    else if consts.arch = "aarch64" then "arm64"
    else consts.arch
  let os := if consts.os = "macos" then "darwin" else consts.os
  os ++ "/" ++ arch

theorem platformUnsupported_iff {labels : List (String × String)} {platforms : List String}
    {os arch : String} (hos : label labels "os" = some os) (harch : label labels "arch" = some arch) :
    platformUnsupported labels platforms = true ↔
      platforms ≠ [] ∧ os ++ "/" ++ arch ∉ platforms ∧ os ++ "-" ++ arch ∉ platforms := by
  unfold platformUnsupported
  rw [hos, harch]
  dsimp only
  cases platforms with
  | nil => simp
  | cons platform platforms =>
    simp only [List.isEmpty_cons, Bool.false_eq_true, if_false, Bool.not_eq_true', List.any_eq_false,
      Bool.or_eq_true, beq_iff_eq, not_or, ne_eq, reduceCtorEq, not_false_eq_true, true_and]
    constructor
    · exact fun h => ⟨fun hmem => (h _ hmem).1 rfl, fun hmem => (h _ hmem).2 rfl⟩
    · rintro ⟨hslash, hdash⟩ listed hmem
      exact ⟨fun heq => hslash (heq ▸ hmem), fun heq => hdash (heq ▸ hmem)⟩

variable {setup : Setup} {desired : String → Option Row} {gens : String → Option Int}

theorem classifyInstall_unsupported_iff {plan : InstallPlan} {node : LiveNode} :
    (classifyInstall setup desired gens plan node).outcome = .platformUnsupported ↔
      nodeTooOld setup node.agentVersion plan.minNodeVersion = false ∧
        platformUnsupported node.labels plan.platforms = true := by
  unfold classifyInstall classifyVersion
  dsimp only
  cases nodeTooOld setup node.agentVersion plan.minNodeVersion with
  | true => simp [hold]
  | false =>
    cases platformUnsupported node.labels plan.platforms with
    | true => simp [hold]
    | false =>
      simp only [Bool.false_eq_true, if_false, and_false, iff_false]
      split
      · exact fun h => by cases h
      · exact fun h => by cases h

/-- The labels of the node give its platform, and a package that it opens lists the
platforms of the version. -/
theorem platforms_agree_iff {plan : InstallPlan} {node : LiveNode} {consts : Consts} {os arch : String}
    (hos : label node.labels "os" = some os) (harch : label node.labels "arch" = some arch)
    (hregistered : os ++ "/" ++ arch = currentPlatform consts) {host : Skills.Setup}
    (hplatform : host.platform = currentPlatform consts) {attempt : Skills.Attempt}
    {skill : Skills.DesiredSkill} {policy : Skills.SkillPolicy} {active : Skills.ActiveSkills}
    {disk : Skills.Disk}
    (hversion : ∀ package, Skills.Opens host attempt skill policy disk package →
      package.manifest.platforms = plan.platforms) :
    ((classifyInstall setup desired gens plan node).outcome ≠ .platformUnsupported →
        Errors Skills.InstallError.Other
          (Skills.tryInstall host attempt skill policy active disk).1) ↔
      ((∃ package, Skills.Opens host attempt skill policy disk package) →
        currentPlatform consts ∈ plan.platforms ∨
          nodeTooOld setup node.agentVersion plan.minNodeVersion = false ∧ plan.platforms ≠ [] ∧
            os ++ "-" ++ arch ∉ plan.platforms) := by
  have hnode : Errors Skills.InstallError.Other
      (Skills.tryInstall host attempt skill policy active disk).1 ↔
        ((∃ package, Skills.Opens host attempt skill policy disk package) →
          currentPlatform consts ∈ plan.platforms) := by
    rw [Skills.tryInstall_other_iff, hplatform]
    constructor
    · rintro h ⟨package, hopens⟩
      exact hversion package hopens ▸ h package hopens
    · intro h package hopens
      rw [hversion package hopens]
      exact h ⟨package, hopens⟩
  rw [hnode, ne_eq, classifyInstall_unsupported_iff, platformUnsupported_iff hos harch, hregistered]
  tauto

/-! ## A package without platforms -/

def anyToml : List Char :=
  ["schema_version = 1\n", "name = \"uptime\"\n", "version = \"1.0.0\"\n", "[runtime]\n",
    "kind = \"wasm\"\n", "abi = \"novbot:skill@1\"\n", "[files]\n", "\"module.wasm\" = \"",
    Skills.wasmHash, "\"\n", "\"schema/params.json\" = \"", Skills.paramsHash, "\"\n",
    "[[capabilities]]\n", "name = \"sys.info.read\"\n"].flatMap String.toList

def anyDocument : List (String × Toml) :=
  [("schema_version", .int 1), ("name", .str "uptime"), ("version", .str "1.0.0"),
    ("runtime", .table [("kind", .str "wasm"), ("abi", .str "novbot:skill@1")]),
    ("files", .table [("module.wasm", .str Skills.wasmHash),
      ("schema/params.json", .str Skills.paramsHash)]),
    ("capabilities", .arr [.table [("name", .str "sys.info.read")]])]

def anyPackage : Bytes :=
  [31, 139, 8, 0, 0, 0, 0, 0, 2, 255, 237, 212, 221, 74, 195, 48, 20, 7, 240, 122, 91, 240, 29, 70,
   30, 160, 158, 211, 166, 105, 43, 8, 190, 199, 24, 114, 210, 38, 24, 215, 143, 209, 116, 19, 17,
   223, 221, 116, 131, 57, 119, 239, 68, 119, 126, 55, 73, 147, 144, 164, 77, 255, 241, 107, 215,
   182, 201, 52, 116, 109, 244, 99, 32, 80, 82, 238, 203, 224, 188, 132, 28, 240, 88, 63, 180, 23,
   69, 46, 163, 5, 68, 23, 176, 245, 19, 141, 97, 201, 232, 58, 249, 250, 217, 116, 244, 180, 51,
   163, 119, 67, 191, 120, 88, 96, 220, 83, 103, 66, 69, 108, 55, 147, 235, 140, 136, 191, 250, 4,
   38, 144, 128, 136, 151, 227, 182, 159, 251, 86, 241, 218, 245, 205, 220, 241, 74, 190, 19, 49,
   105, 55, 63, 244, 195, 78, 15, 211, 189, 159, 127, 173, 71, 12, 195, 173, 107, 141, 95, 197,
   162, 27, 154, 109, 107, 146, 253, 224, 121, 96, 42, 13, 217, 76, 102, 21, 41, 168, 43, 85, 40,
   89, 75, 155, 214, 85, 74, 64, 37, 234, 60, 213, 141, 180, 38, 111, 114, 93, 161, 133, 10, 176,
   148, 4, 86, 201, 82, 105, 212, 54, 173, 68, 44, 14, 251, 191, 219, 208, 72, 157, 79, 94, 252,
   208, 239, 103, 150, 18, 51, 101, 41, 203, 115, 157, 169, 162, 36, 68, 169, 168, 65, 101, 11,
   83, 42, 89, 153, 74, 90, 45, 109, 157, 162, 53, 69, 104, 202, 16, 106, 80, 97, 106, 172, 137,
   172, 45, 41, 108, 122, 89, 211, 38, 188, 80, 235, 38, 23, 54, 191, 58, 126, 22, 255, 230, 19,
   215, 219, 33, 25, 13, 53, 34, 254, 227, 231, 127, 114, 36, 191, 150, 127, 64, 248, 158, 127, 4,
   196, 148, 243, 127, 17, 225, 224, 111, 163, 155, 136, 93, 243, 253, 127, 122, 127, 254, 66,
   254, 33, 61, 203, 63, 102, 121, 198, 249, 191, 132, 247, 15, 206, 0, 99, 140, 49, 198, 24, 99,
   140, 49, 198, 24, 99, 140, 49, 198, 24, 99, 140, 253, 7, 159, 120, 154, 204, 179, 0, 40, 0, 0]

def anySha256 : String := "47cfc6931b8723b9a321d067e31e6e45011cdad6acae5ff8bf84d7ee76f4d25d"

def anySkill : Skills.DesiredSkill :=
  { Skills.uptimeSkill with sha256 := anySha256, sizeBytes := anyPackage.length }

def anyPlan : InstallPlan := ⟨"uptime", "1.0.0", anySha256, none, []⟩

def linuxNode : LiveNode := ⟨"node-1", "0.1.0", [("arch", "amd64"), ("os", "linux")]⟩

def linuxConsts : Consts := ⟨"linux", "x86_64"⟩

def anyHost : Skills.Setup :=
  { Skills.uptimeSetup with
    formats := Skills.uptimeFormats anyPackage anySha256 anyToml anyDocument
    platform := currentPlatform linuxConsts }

def anyAttempt : Skills.Attempt :=
  { Skills.refusedAttempt with fetch := fun offset => .ok ⟨anyPackage.length, anyPackage.drop offset⟩ }

theorem anyPackage_platforms {package : Skills.Package}
    (h : Skills.Opens anyHost anyAttempt anySkill Skills.defaultPolicy .empty package) :
    package.manifest.platforms = [] := by
  obtain ⟨-, -, -, bytes, hbytes, hopened⟩ := h
  have hfetched : (Skills.fetchPackage anyHost.formats.sha256 anyAttempt anySkill none).outcome.toOption =
      some anyPackage := by decide +kernel
  have hmanifest : (Skills.openPackage anyHost.formats anyPackage "uptime" "1.0.0").toOption.map
      (·.manifest.platforms) = some [] := by decide +kernel
  rw [show Skills.Disk.empty.downloads.lookup anySkill.sha256 = none from rfl] at hbytes
  rw [hbytes] at hfetched
  cases hfetched
  rw [show anySkill.name = "uptime" from rfl, show anySkill.version = "1.0.0" from rfl] at hopened
  rw [hopened] at hmanifest
  exact Option.some.inj hmanifest

theorem platforms_agree_any :
    ((classifyInstall ⟨fun _ => none⟩ (fun _ => none) (fun _ => none) anyPlan linuxNode).outcome ≠
        .platformUnsupported →
      Errors Skills.InstallError.Other
        (Skills.tryInstall anyHost anyAttempt anySkill Skills.defaultPolicy .empty .empty).1) ↔
      ((∃ package, Skills.Opens anyHost anyAttempt anySkill Skills.defaultPolicy .empty package) →
        currentPlatform linuxConsts ∈ anyPlan.platforms ∨
          nodeTooOld ⟨fun _ => none⟩ linuxNode.agentVersion anyPlan.minNodeVersion = false ∧
            anyPlan.platforms ≠ [] ∧ "linux" ++ "-" ++ "amd64" ∉ anyPlan.platforms) :=
  platforms_agree_iff (by decide) (by decide) (by decide) rfl fun _ => anyPackage_platforms

/-- The center installs the package on a node that does not accept it. -/
theorem any_platform_refused :
    (classifyInstall ⟨fun _ => none⟩ (fun _ => none) (fun _ => none) anyPlan linuxNode).outcome =
        .written ∧
      ∃ err, (Skills.tryInstall anyHost anyAttempt anySkill Skills.defaultPolicy .empty .empty).1 =
        .error err ∧ err.reason = .platformUnsupported := by
  refine ⟨by decide, ?_⟩
  have hfails : (match (Skills.tryInstall anyHost anyAttempt anySkill Skills.defaultPolicy .empty
      .empty).1 with
    | .error err => some err.reason
    | .ok _ => none) = some .platformUnsupported := by decide +kernel
  split at hfails
  · next err herr => exact ⟨err, herr, Option.some.inj hfails⟩
  · cases hfails

end Novbot.Desired
