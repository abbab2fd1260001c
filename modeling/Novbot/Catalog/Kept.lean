import Novbot.Catalog.Contract
import Novbot.Skills.Uploads
import Novbot.Skills.Reconcile

/-!
# Versions are immutable

A version is inserted once and deleted, and nothing writes its row in between.  The keys of
`skill_versions` keep a second package out, and an upload that finds its version answers by
the hash of it.  The artifact of a version is stored before the version, or found with its
lock taken, and it is deleted with the version while both are locked.
-/

namespace Novbot.Catalog

open Concurrent Package

/-! ## The statement -/

variable (setup : Setup)

/-- No step of the thread changes the tables. -/
def Unchanged (sys : System) (t : Nat) : Prop :=
  ∀ c sys', (center setup).step sys (.act t c) = some sys' →
    sys'.shared.tables = sys.shared.tables

/-- No step of the thread changes a skill or a version. -/
def KeepsVersions (sys : System) (t : Nat) : Prop :=
  ∀ c sys', (center setup).step sys (.act t c) = some sys' →
    sys'.shared.tables.skills = sys.shared.tables.skills ∧
      sys'.shared.tables.versions = sys.shared.tables.versions

/-- What the upload of a package does in a state. -/
structure UploadKept (sys : System) (t : Nat) (body : Bytes) (package : ParsedPackage) : Prop where
  /-- While the version exists, the upload leaves skills and versions alone. -/
  existing : ∀ row ∈ sys.shared.tables.versions, row.name = package.name →
    row.version = package.version → KeepsVersions setup sys t
  /-- The upload finds the version that exists, with the hash of its bytes. -/
  found : ∀ c sys' row data,
    sys.about t (.lockVersion package.name package.version) →
    (center setup).step sys (.act t c) = some sys' →
    row ∈ sys.shared.tables.versions → row.name = package.name → row.version = package.version →
    sys.shared.tables.artifacts row.sha256 = some data →
    (sys'.loc t).found package (some (setup.formats.sha256 data))
  /-- An upload that found its own bytes changes nothing, but for an artifact that was
  deleted since. -/
  again : (sys.loc t).found package (some (setup.formats.sha256 body)) →
    KeepsVersions setup sys t ∧
    ((∃ row ∈ sys.shared.tables.versions, row.sha256 = setup.formats.sha256 body) →
      Unchanged setup sys t) ∧
    ∀ outcome, sys.about t (.respond outcome) →
      outcome = .registered false package ∨ outcome = .internal
  /-- An upload that found other bytes is rejected and changes nothing. -/
  different : ∀ data, (sys.loc t).found package (some (setup.formats.sha256 data)) →
    (setup.formats.sha256 data = setup.formats.sha256 body → data = body) → data ≠ body →
    Unchanged setup sys t ∧ ∀ outcome, sys.about t (.respond outcome) → outcome = .versionExists

structure Immutable (sys : System) : Prop where
  /-- A version that is there after a step is the one that was there before. -/
  kept : ∀ m sys', (center setup).step sys m = some sys' →
    ∀ row ∈ sys.shared.tables.versions, ∀ row' ∈ sys'.shared.tables.versions,
    row'.name = row.name → row'.version = row.version → row' = row
  /-- A version has an artifact, whose bytes hash to its `sha256`. -/
  stored : ∀ row ∈ sys.shared.tables.versions, ∃ data,
    sys.shared.tables.artifacts row.sha256 = some data ∧ setup.formats.sha256 data = row.sha256
  uploads : ∀ t body package, (sys.loc t).Uploads setup.formats body package →
    UploadKept setup sys t body package

/-! ## What a commit does -/

variable {setup} {formats : Formats} {tables tables' : Tables} {loc : Loc} {body : Bytes}
  {package : ParsedPackage} {writes : List Write}

/-- The artifact is there afterwards, and no other has changed. -/
structure Puts (formats : Formats) (sha256 : String) (data : Bytes) (tables tables' : Tables) :
    Prop where
  there : (tables'.artifacts sha256).isSome
  artifacts : tables'.artifacts = tables.artifacts ∨
    formats.sha256 data = sha256 ∧ tables.artifacts sha256 = none ∧
      tables'.artifacts = Function.update tables.artifacts sha256 (some data)

/-- The version of the package is new. -/
structure Adds (formats : Formats) (body : Bytes) (package : ParsedPackage)
    (tables tables' : Tables) : Prop where
  versions : tables'.versions = tables.versions ++ [package]
  fresh : ∀ row ∈ tables.versions, row.holds package.name package.version = false
  unshared : ∀ row ∈ tables.versions, row.sha256 ≠ package.sha256
  puts : Puts formats package.sha256 body tables tables'

structure Drops (loc : Loc) (name version sha256 : String) (tables tables' : Tables) : Prop where
  versions : tables'.versions = tables.versions.filter fun row => !row.holds name version
  artifacts : tables'.artifacts = tables.artifacts ∨ .artifact sha256 ∈ loc.locked ∧
    tables'.artifacts = Function.update tables.artifacts sha256 none

/-- What the commit of a request does to the tables. -/
inductive Changed (formats : Formats) (loc : Loc) (tables tables' : Tables) : Prop where
  | add {body : Bytes} {package : ParsedPackage} :
    loc.Uploads formats body package → (∀ sha256, ¬ loc.found package (some sha256)) →
    .skill package.name ∈ loc.locked → Adds formats body package tables tables' →
    Changed formats loc tables tables'
  | ensure {body : Bytes} {package : ParsedPackage} :
    loc.Uploads formats body package → loc.found package (some package.sha256) →
    tables'.skills = tables.skills → tables'.versions = tables.versions →
    Puts formats package.sha256 body tables tables' →
    Changed formats loc tables tables'
  | drop {name version sha256 : String} :
    loc.request = some (.delete name version) →
    loc.seen = some (name, version, some sha256) → .skill name ∈ loc.locked →
    Drops loc name version sha256 tables tables' →
    Changed formats loc tables tables'

theorem applyAll_cons {write : Write} :
    applyAll (write :: writes) tables = some tables' ↔
      ∃ mid, write.apply tables = some mid ∧ applyAll writes mid = some tables' := by
  unfold applyAll
  rw [List.foldlM_cons]
  exact Option.bind_eq_some_iff

theorem applyAll_append {first last : List Write} :
    applyAll (first ++ last) tables = some tables' ↔
      ∃ mid, applyAll first tables = some mid ∧ applyAll last mid = some tables' := by
  unfold applyAll
  rw [List.foldlM_append]
  exact Option.bind_eq_some_iff

theorem applyAll_singleton {write : Write} :
    applyAll [write] tables = write.apply tables := by
  simp [applyAll]

theorem apply_insertArtifact {sha256 : String} {data : Bytes}
    (h : Write.apply tables (.insertArtifact sha256 data) = some tables') :
    tables.artifacts sha256 = none ∧
      tables' = { tables with artifacts := Function.update tables.artifacts sha256 (some data) } := by
  simp only [Write.apply] at h
  split at h
  · cases h
  · next hnone =>
    cases h
    exact ⟨Option.not_isSome_iff_eq_none.mp hnone, rfl⟩

theorem apply_insertVersion (h : Write.apply tables (.insertVersion package) = some tables') :
    (∀ row ∈ tables.versions, row.holds package.name package.version = false ∧
      row.sha256 ≠ package.sha256) ∧
      tables' = { tables with versions := tables.versions ++ [package] } := by
  simp only [Write.apply] at h
  split at h
  · cases h
  · next hfresh =>
    cases h
    refine ⟨fun row hrow => ?_, rfl⟩
    rw [Bool.or_eq_true, not_or, List.any_eq_true] at hfresh
    have hrow' : ¬(row.holds package.name package.version || row.sha256 == package.sha256) = true :=
      fun hholds => hfresh.2 ⟨row, hrow, hholds⟩
    simpa using hrow'

/-- A write to `skills` leaves the other tables alone. -/
theorem apply_skill {write : Write}
    (hwrite : write = .insertSkill package ∨ write = .updateSkill package)
    (h : write.apply tables = some tables') :
    tables'.versions = tables.versions ∧ tables'.artifacts = tables.artifacts := by
  rcases hwrite with rfl | rfl
  · simp only [Write.apply] at h
    split at h
    · cases h
    · cases h
      exact ⟨rfl, rfl⟩
  · cases h
    exact ⟨rfl, rfl⟩

theorem Stores.puts {sha256 : String} {data : Bytes}
    (h : Stores formats loc sha256 data writes)
    (hthere : ∀ sha256 ∈ loc.stored, (tables.artifacts sha256).isSome)
    (happly : applyAll writes tables = some tables') :
    tables'.skills = tables.skills ∧ tables'.versions = tables.versions ∧
      Puts formats sha256 data tables tables' := by
  cases h with
  | there hstored =>
    cases happly
    exact ⟨rfl, rfl, hthere sha256 hstored, .inl rfl⟩
  | insert hsha =>
    rw [applyAll_singleton] at happly
    obtain ⟨hnone, rfl⟩ := apply_insertArtifact happly
    refine ⟨rfl, rfl, ?_, .inr ⟨hsha, hnone, rfl⟩⟩
    dsimp only
    rw [Function.update_self]
    rfl

/-- A write to the skill, the artifact and the version. -/
theorem adds_of_apply {first : Write} {stored : List Write}
    (hfirst : first = .insertSkill package ∨ first = .updateSkill package)
    (hstored : Stores formats loc package.sha256 body stored)
    (hthere : ∀ sha256 ∈ loc.stored, (tables.artifacts sha256).isSome)
    (happly : applyAll (first :: (stored ++ [.insertVersion package])) tables = some tables') :
    Adds formats body package tables tables' := by
  obtain ⟨mid, hskill, happly⟩ := applyAll_cons.mp happly
  obtain ⟨last, hput, happly⟩ := applyAll_append.mp happly
  rw [applyAll_singleton] at happly
  obtain ⟨hversions, hartifacts⟩ := apply_skill hfirst hskill
  obtain ⟨-, hsame, hputs⟩ := hstored.puts (fun sha256 hmem => hartifacts ▸ hthere sha256 hmem) hput
  obtain ⟨hfresh, rfl⟩ := apply_insertVersion happly
  rw [hsame, hversions] at hfresh
  refine ⟨?_, fun row hrow => (hfresh row hrow).1, fun row hrow => (hfresh row hrow).2,
    hputs.there, ?_⟩
  · dsimp only
    rw [hsame, hversions]
  · rw [← hartifacts]
    exact hputs.artifacts

theorem Commits.changed (h : Commits formats loc writes)
    (hthere : ∀ sha256 ∈ loc.stored, (tables.artifacts sha256).isSome)
    (happly : applyAll writes tables = some tables') : Changed formats loc tables tables' := by
  cases h with
  | create hup hseen hlocked hstored =>
    refine .add hup (fun sha256 hfound => ?_) hlocked (adds_of_apply (.inl rfl) hstored hthere happly)
    rw [Loc.found, hseen] at hfound
    cases hfound
  | update hup hfound hlocked hstored =>
    refine .add hup (fun sha256 hother => ?_) hlocked (adds_of_apply (.inr rfl) hstored hthere happly)
    rw [Loc.found, hfound] at hother
    cases hother
  | ensure hup hfound hstored =>
    obtain ⟨hskills, hversions, hputs⟩ := hstored.puts hthere happly
    exact .ensure hup hfound hskills hversions hputs
  | @delete name version sha256 dropped hrequest hseen hlocked hchecked hdropped =>
    refine .drop hrequest hseen hlocked ?_
    obtain ⟨mid, hversion, happly⟩ := applyAll_cons.mp happly
    cases hversion
    rcases hdropped with rfl | ⟨rfl, hartifact⟩
    · cases happly
      exact ⟨rfl, .inl rfl⟩
    · rw [applyAll_singleton] at happly
      cases happly
      exact ⟨rfl, .inr ⟨hartifact, rfl⟩⟩

/-! ## The invariant -/

structure Catalogued (formats : Formats) (tables : Tables) : Prop where
  bytes : ∀ sha256 data, tables.artifacts sha256 = some data → formats.sha256 data = sha256
  artifact : ∀ row ∈ tables.versions, (tables.artifacts row.sha256).isSome
  key : ∀ row ∈ tables.versions, ∀ row' ∈ tables.versions,
    row'.name = row.name → row'.version = row.version → row' = row
  hash : ∀ row ∈ tables.versions, ∀ row' ∈ tables.versions, row'.sha256 = row.sha256 → row' = row

/-- A thread has the locks that it took, and what it read under them still holds. -/
structure ThreadInv (center : Center) (t : Nat) (loc : Loc) : Prop where
  held : ∀ lock ∈ loc.locked, center.holder lock = some t
  stored : ∀ sha256 ∈ loc.stored, .artifact sha256 ∈ loc.locked ∧
    (center.tables.artifacts sha256).isSome
  seen : ∀ name version found, loc.seen = some (name, version, found) →
    .skill name ∈ loc.locked → (center.tables.version name version).map (·.sha256) = found

structure Invariant (formats : Formats) (center : Center) (locs : Nat → Loc) : Prop where
  tables : Catalogued formats center.tables
  threads : ∀ t, ThreadInv center t (locs t)

theorem ParsedPackage.holds_iff {name version : String} :
    package.holds name version = true ↔ package.name = name ∧ package.version = version := by
  simp [ParsedPackage.holds]

theorem version_eq_some_iff (h : Catalogued formats tables) {name version : String} :
    tables.version name version = some package ↔
      package ∈ tables.versions ∧ package.name = name ∧ package.version = version := by
  constructor
  · intro hfind
    have hholds := List.find?_some (p := fun row : ParsedPackage => row.holds name version) hfind
    exact ⟨List.mem_of_find?_eq_some hfind, ParsedPackage.holds_iff.mp hholds⟩
  · rintro ⟨hmem, rfl, rfl⟩
    cases hfind : tables.version package.name package.version with
    | none =>
      have hnone := List.find?_eq_none.mp hfind package hmem
      exact absurd (ParsedPackage.holds_iff.mpr ⟨rfl, rfl⟩) hnone
    | some row =>
      have hholds := List.find?_some
        (p := fun row : ParsedPackage => row.holds package.name package.version) hfind
      obtain ⟨hname, hversion⟩ := ParsedPackage.holds_iff.mp hholds
      rw [h.key package hmem row (List.mem_of_find?_eq_some hfind) hname hversion]

/-! ### Commits -/

theorem Puts.isSome {sha256 : String} {data : Bytes} (h : Puts formats sha256 data tables tables')
    {sha256' : String} (hsome : (tables.artifacts sha256').isSome) :
    (tables'.artifacts sha256').isSome := by
  rcases h.artifacts with heq | ⟨-, -, heq⟩
  · rwa [heq]
  · rw [heq, Function.update_apply]
    split
    · rfl
    · exact hsome

theorem Puts.bytes {sha256 : String} {data : Bytes} (h : Puts formats sha256 data tables tables')
    (hinv : Catalogued formats tables) {sha256' : String} {data' : Bytes}
    (hdata : tables'.artifacts sha256' = some data') : formats.sha256 data' = sha256' := by
  rcases h.artifacts with heq | ⟨hsha, -, heq⟩
  · exact hinv.bytes sha256' data' (heq ▸ hdata)
  · rw [heq, Function.update_apply] at hdata
    split at hdata
    · next hkey =>
      cases hdata
      rw [hkey]
      exact hsha
    · exact hinv.bytes sha256' data' hdata

theorem Adds.mem (h : Adds formats body package tables tables') {row : ParsedPackage} :
    row ∈ tables'.versions ↔ row ∈ tables.versions ∨ row = package := by
  rw [h.versions, List.mem_append, List.mem_singleton]

/-- No row that was there has the key of the new one. -/
theorem Adds.new (h : Adds formats body package tables tables') {row : ParsedPackage}
    (hrow : row ∈ tables.versions) : ¬(row.name = package.name ∧ row.version = package.version) := by
  intro hsame
  have hholds := ParsedPackage.holds_iff.mpr hsame
  rw [h.fresh row hrow] at hholds
  cases hholds

theorem Adds.catalogued (h : Adds formats body package tables tables')
    (hinv : Catalogued formats tables) : Catalogued formats tables' := by
  refine ⟨fun _ _ => h.puts.bytes hinv, fun row hrow => ?_, ?_, ?_⟩
  · rcases h.mem.mp hrow with hrow | rfl
    · exact h.puts.isSome (hinv.artifact row hrow)
    · exact h.puts.there
  · intro row hrow row' hrow' hname hversion
    rcases h.mem.mp hrow with hrow | rfl
    · rcases h.mem.mp hrow' with hrow' | rfl
      · exact hinv.key row hrow row' hrow' hname hversion
      · exact absurd ⟨hname.symm, hversion.symm⟩ (h.new hrow)
    · rcases h.mem.mp hrow' with hrow' | rfl
      · exact absurd ⟨hname, hversion⟩ (h.new hrow')
      · rfl
  · intro row hrow row' hrow' hsha
    rcases h.mem.mp hrow with hrow | rfl
    · rcases h.mem.mp hrow' with hrow' | rfl
      · exact hinv.hash row hrow row' hrow' hsha
      · exact absurd hsha.symm (h.unshared row hrow)
    · rcases h.mem.mp hrow' with hrow' | rfl
      · exact absurd hsha (h.unshared row' hrow')
      · rfl

theorem Drops.mem {name version sha256 : String} (h : Drops loc name version sha256 tables tables')
    {row : ParsedPackage} :
    row ∈ tables'.versions ↔ row ∈ tables.versions ∧ ¬(row.name = name ∧ row.version = version) := by
  rw [h.versions, List.mem_filter, ← ParsedPackage.holds_iff, Bool.not_eq_true, Bool.not_eq_true']

/-- The artifact that is deleted is of no version that is left. -/
theorem Drops.catalogued {name version sha256 : String}
    (h : Drops loc name version sha256 tables tables') (hinv : Catalogued formats tables)
    (hseen : (tables.version name version).map (·.sha256) = some sha256) :
    Catalogued formats tables' := by
  obtain ⟨deleted, hdeleted, hsha⟩ := Option.map_eq_some_iff.mp hseen
  obtain ⟨hmem, hname, hversion⟩ := (version_eq_some_iff hinv).mp hdeleted
  refine ⟨fun sha256' data hdata => ?_, fun row hrow => ?_, ?_, ?_⟩
  · rcases h.artifacts with heq | ⟨-, heq⟩
    · exact hinv.bytes sha256' data (heq ▸ hdata)
    · rw [heq, Function.update_apply] at hdata
      split at hdata
      · cases hdata
      · exact hinv.bytes sha256' data hdata
  · obtain ⟨hrow, hother⟩ := h.mem.mp hrow
    have hsome := hinv.artifact row hrow
    rcases h.artifacts with heq | ⟨-, heq⟩
    · rwa [heq]
    · have hne : row.sha256 ≠ sha256 := by
        intro hsame
        cases hinv.hash deleted hmem row hrow (hsame.trans hsha.symm)
        exact hother ⟨hname, hversion⟩
      rwa [heq, Function.update_of_ne hne]
  · intro row hrow row' hrow'
    exact hinv.key row (h.mem.mp hrow).1 row' (h.mem.mp hrow').1
  · intro row hrow row' hrow'
    exact hinv.hash row (h.mem.mp hrow).1 row' (h.mem.mp hrow').1

variable {state state' : Center} {locs : Nat → Loc} {t t' : Nat}

theorem Changed.catalogued (h : Changed formats loc state.tables tables')
    (hinv : Catalogued formats state.tables) (hthread : ThreadInv state t loc) :
    Catalogued formats tables' := by
  cases h with
  | add hup hnew hlocked hadds => exact hadds.catalogued hinv
  | ensure hup hfound hskills hversions hputs =>
    refine ⟨fun _ _ => hputs.bytes hinv, fun row hrow => ?_, ?_, ?_⟩
    · rw [hversions] at hrow
      exact hputs.isSome (hinv.artifact row hrow)
    · rw [hversions]
      exact hinv.key
    · rw [hversions]
      exact hinv.hash
  | drop hrequest hseen hlocked hdrops =>
    exact hdrops.catalogued hinv (hthread.seen _ _ _ hseen hlocked)

/-- The versions of a skill that is not locked stay as they are. -/
theorem Changed.version_eq (h : Changed formats loc tables tables') {name : String}
    (hother : .skill name ∉ loc.locked) (version : String) :
    tables'.version name version = tables.version name version := by
  have hne : ∀ {name' : String}, .skill name' ∈ loc.locked → name ≠ name' :=
    fun hlocked heq => hother (heq ▸ hlocked)
  cases h with
  | @add body package hup hnew hlocked hadds =>
    have hfalse : package.holds name version = false := by
      rw [Bool.eq_false_iff, ne_eq, ParsedPackage.holds_iff]
      exact fun hsame => hne hlocked hsame.1.symm
    unfold Tables.version
    rw [hadds.versions, List.find?_append, List.find?_singleton, hfalse]
    simp
  | ensure hup hfound hskills hversions hputs =>
    unfold Tables.version
    rw [hversions]
  | @drop name' version' sha256 hrequest hseen hlocked hdrops =>
    unfold Tables.version
    rw [hdrops.versions, List.find?_filter]
    congr 1
    funext row
    cases hholds : row.holds name version with
    | false => simp
    | true =>
      have hfalse : row.holds name' version' = false := by
        rw [Bool.eq_false_iff, ne_eq, ParsedPackage.holds_iff]
        rintro ⟨rfl, -⟩
        exact hne hlocked (ParsedPackage.holds_iff.mp hholds).1.symm
      simp [hfalse]

/-- An artifact that is not locked stays. -/
theorem Changed.isSome (h : Changed formats loc tables tables') {sha256 : String}
    (hother : .artifact sha256 ∉ loc.locked) (hsome : (tables.artifacts sha256).isSome) :
    (tables'.artifacts sha256).isSome := by
  cases h with
  | add hup hnew hlocked hadds => exact hadds.puts.isSome hsome
  | ensure hup hfound hskills hversions hputs => exact hputs.isSome hsome
  | @drop name version deleted hrequest hseen hlocked hdrops =>
    rcases hdrops.artifacts with heq | ⟨hlock, heq⟩
    · rwa [heq]
    · have hne : sha256 ≠ deleted := fun hsame => hother (hsame ▸ hlock)
      rwa [heq, Function.update_of_ne hne]

/-- A row that is there before and after is the same. -/
theorem Changed.kept (h : Changed formats loc tables tables') (hinv : Catalogued formats tables)
    {row row' : ParsedPackage} (hrow : row ∈ tables.versions) (hrow' : row' ∈ tables'.versions)
    (hname : row'.name = row.name) (hversion : row'.version = row.version) : row' = row := by
  cases h with
  | add hup hnew hlocked hadds =>
    rcases hadds.mem.mp hrow' with hrow' | rfl
    · exact hinv.key row hrow row' hrow' hname hversion
    · exact absurd ⟨hname.symm, hversion.symm⟩ (hadds.new hrow)
  | ensure hup hfound hskills hversions hputs =>
    rw [hversions] at hrow'
    exact hinv.key row hrow row' hrow' hname hversion
  | drop hrequest hseen hlocked hdrops =>
    exact hinv.key row hrow row' (hdrops.mem.mp hrow').1 hname hversion

/-! ### Locks -/

theorem ThreadInv.other (h : ThreadInv state t loc)
    (hholder : ∀ lock, state.holder lock = some t → state'.holder lock = some t)
    (hartifacts : ∀ sha256, state.holder (.artifact sha256) = some t →
      (state.tables.artifacts sha256).isSome → (state'.tables.artifacts sha256).isSome)
    (hversions : ∀ name, state.holder (.skill name) = some t → ∀ version,
      state'.tables.version name version = state.tables.version name version) :
    ThreadInv state' t loc where
  held lock hlock := hholder lock (h.held lock hlock)
  stored sha256 hmem := by
    obtain ⟨hlock, hsome⟩ := h.stored sha256 hmem
    exact ⟨hlock, hartifacts sha256 (h.held _ hlock) hsome⟩
  seen name version found hseen hlock := by
    rw [hversions name (h.held _ hlock)]
    exact h.seen name version found hseen hlock

/-- The thread goes on under its locks. -/
theorem ThreadInv.congr (h : ThreadInv state t loc) {loc' : Loc}
    (hlocked : loc'.locked = loc.locked) (hstored : loc'.stored = loc.stored)
    (hseen : loc'.seen = loc.seen) : ThreadInv state t loc' := by
  refine ⟨?_, ?_, ?_⟩
  · rw [hlocked]
    exact h.held
  · rw [hstored, hlocked]
    exact h.stored
  · rw [hseen, hlocked]
    exact h.seen

/-- A thread that has no lock. -/
theorem threadInv_unlocked (hlocked : loc.locked = []) (hstored : loc.stored = []) :
    ThreadInv state t loc := by
  refine ⟨?_, ?_, ?_⟩
  · rw [hlocked]
    intro lock hlock
    cases hlock
  · rw [hstored]
    intro sha256 hmem
    cases hmem
  · rw [hlocked]
    intro name version found hseen hlock
    cases hlock

theorem ThreadInv.lock (h : ThreadInv state t loc) {lock : Lock} {loc' : Loc}
    (hlocked : loc'.locked = lock :: loc.locked) (hseen : loc'.seen = loc.seen)
    (hstored : ∀ sha256 ∈ loc'.stored, sha256 ∈ loc.stored ∨
      lock = .artifact sha256 ∧ (state.tables.artifacts sha256).isSome)
    (hfirst : ∀ name, lock = .skill name → loc.seen = none) :
    ThreadInv (state.lock t lock) t loc' := by
  refine ⟨fun lock' hlock' => ?_, fun sha256 hmem => ?_, ?_⟩
  · rw [hlocked] at hlock'
    show Function.update state.holder lock (some t) lock' = some t
    rw [Function.update_apply]
    split
    · rfl
    · next hne =>
      rcases List.mem_cons.mp hlock' with heq | hlock'
      · exact absurd heq hne
      · exact h.held lock' hlock'
  · rw [hlocked]
    rcases hstored sha256 hmem with hmem | ⟨rfl, hsome⟩
    · obtain ⟨hlock, hsome⟩ := h.stored sha256 hmem
      exact ⟨List.mem_cons_of_mem _ hlock, hsome⟩
    · exact ⟨List.mem_cons_self, hsome⟩
  · intro name version found hfound hlock
    rw [hseen] at hfound
    rw [hlocked] at hlock
    rcases List.mem_cons.mp hlock with heq | hlock
    · rw [hfirst name heq.symm] at hfound
      cases hfound
    · exact h.seen name version found hfound hlock

theorem Center.lock_holder {lock lock' : Lock} (hfree : state.free t lock = true) (hne : t' ≠ t)
    (hheld : state.holder lock' = some t') : (state.lock t lock).holder lock' = some t' := by
  show Function.update state.holder lock (some t) lock' = some t'
  rw [Function.update_apply]
  split
  · next heq =>
    subst heq
    unfold Center.free at hfree
    rw [hheld] at hfree
    exact absurd (eq_of_beq hfree) hne
  · exact hheld

theorem Center.finish_holder {lock : Lock} (hne : t' ≠ t) (hheld : state.holder lock = some t') :
    (state.finish t).holder lock = some t' := by
  show (if state.holder lock = some t then none else state.holder lock) = some t'
  rw [hheld, if_neg]
  exact fun heq => hne (Option.some.inj heq)

/-- A thread takes a step that leaves the tables and the locks of others alone. -/
theorem Invariant.thread (h : Invariant formats state locs) {loc' : Loc}
    (htables : state'.tables = state.tables)
    (hholder : ∀ t' ≠ t, ∀ lock, state.holder lock = some t' → state'.holder lock = some t')
    (hthread : ThreadInv state' t loc') :
    Invariant formats state' (Function.update locs t loc') := by
  refine ⟨htables ▸ h.tables, fun t' => ?_⟩
  rw [Function.update_apply]
  split
  · next heq => exact heq ▸ hthread
  · next hne =>
    refine (h.threads t').other (hholder t' hne) ?_ ?_
    · exact fun sha256 _ hsome => htables ▸ hsome
    · exact fun name _ version => htables ▸ rfl

/-- The same, when the thread reads only. -/
theorem Invariant.read (h : Invariant formats state locs) {loc' : Loc}
    (htables : state'.tables = state.tables) (hholder : state'.holder = state.holder)
    (hlocked : loc'.locked = (locs t).locked) (hstored : loc'.stored = (locs t).stored)
    (hseen : loc'.seen = (locs t).seen) :
    Invariant formats state' (Function.update locs t loc') := by
  have hheld : ∀ t' lock, state.holder lock = some t' → state'.holder lock = some t' :=
    fun t' lock hlock => hholder ▸ hlock
  refine h.thread htables (fun t' _ => hheld t') ?_
  refine ((h.threads t).other (hheld t) ?_ ?_).congr hlocked hstored hseen
  · exact fun sha256 _ hsome => htables ▸ hsome
  · exact fun name _ version => htables ▸ rfl

theorem Invariant.lock (h : Invariant formats state locs) {lock : Lock} {loc' : Loc}
    (hfree : state.free t lock = true)
    (hlocked : loc'.locked = lock :: (locs t).locked) (hseen : loc'.seen = (locs t).seen)
    (hstored : ∀ sha256 ∈ loc'.stored, sha256 ∈ (locs t).stored ∨
      lock = .artifact sha256 ∧ (state.tables.artifacts sha256).isSome)
    (hfirst : ∀ name, lock = .skill name → (locs t).seen = none) :
    Invariant formats (state.lock t lock) (Function.update locs t loc') :=
  h.thread rfl (fun _ hne _ => Center.lock_holder hfree hne)
    ((h.threads t).lock hlocked hseen hstored hfirst)

/-- The transaction ends without a change. -/
theorem Invariant.finish (h : Invariant formats state locs) (desired : Desired.Center)
    {loc' : Loc} (hlocked : loc'.locked = []) (hstored : loc'.stored = []) :
    Invariant formats { state.finish t with desired } (Function.update locs t loc') :=
  h.thread rfl (fun _ hne _ hheld => Center.finish_holder hne hheld)
    (threadInv_unlocked hlocked hstored)

theorem Invariant.commit (h : Invariant formats state locs) {writes : List Write}
    (hcommits : Commits formats (locs t) writes)
    (happly : applyAll writes state.tables = some tables') :
    Invariant formats ((state.commit tables' writes).finish t)
      (Function.update locs t (locs t).finish) := by
  have hthread := h.threads t
  have hchanged : Changed formats (locs t) state.tables tables' :=
    hcommits.changed (fun sha256 hmem => (hthread.stored sha256 hmem).2) happly
  refine ⟨hchanged.catalogued h.tables hthread, fun t' => ?_⟩
  rw [Function.update_apply]
  split
  · exact threadInv_unlocked rfl rfl
  · next hne =>
    -- A lock of another thread is none of this one's.
    have hother : ∀ lock, state.holder lock = some t' → lock ∉ (locs t).locked := by
      intro lock hheld hlock
      rw [hthread.held lock hlock] at hheld
      exact hne (Option.some.inj hheld).symm
    refine (h.threads t').other (fun lock hheld => ?_) ?_ ?_
    · have hcommitted : (state.commit tables' writes).holder lock = some t' := hheld
      exact Center.finish_holder hne hcommitted
    · exact fun sha256 hheld hsome => hchanged.isSome (hother _ hheld) hsome
    · exact fun name hheld version => hchanged.version_eq (hother _ hheld) version

theorem Center.desire_tables (op : Desired.Op) (desired : Desired.Center) :
    (state.desire t op desired).tables = state.tables ∧
      (state.desire t op desired).holder = state.holder := by
  cases op <;> exact ⟨rfl, rfl⟩

theorem Invariant.exec (h : Invariant formats state locs) {op : Op} {elsewhere : Bool}
    {reply : op.Reply} (hpre : mayPerform formats op (locs t))
    (hexec : exec t op elsewhere state = some (reply, state')) :
    Invariant formats state' (Function.update locs t (note op reply (locs t))) := by
  cases op with
  | lockSkill name =>
    simp only [Catalog.exec] at hexec
    split at hexec
    · next hfree =>
      split at hexec
      · cases hexec
        refine h.lock hfree rfl rfl (fun sha256 hmem => .inl hmem) ?_
        exact fun _ _ => hpre
      · cases hexec
        exact h.read rfl rfl rfl rfl rfl
    · cases hexec
  | insertSkill package =>
    simp only [Catalog.exec] at hexec
    split at hexec
    · next hfree =>
      split at hexec
      · cases hexec
        exact h.read rfl rfl rfl rfl rfl
      · cases hexec
        refine h.lock hfree rfl rfl (fun sha256 hmem => .inl hmem) ?_
        exact fun _ _ => hpre
    · cases hexec
  | lockVersion name version =>
    cases hexec
    have hthread := h.threads t
    refine h.thread rfl (fun _ _ _ hheld => hheld) ⟨hthread.held, hthread.stored, ?_⟩
    intro name' version' found hfound _
    cases hfound
    rfl
  | lockArtifact sha256 =>
    simp only [Catalog.exec] at hexec
    split at hexec
    · next hfree =>
      split at hexec
      · next data hdata =>
        cases hexec
        refine h.lock hfree rfl rfl (fun sha256' hmem => ?_) (fun name heq => by cases heq)
        rcases List.mem_cons.mp hmem with rfl | hmem
        · exact .inr ⟨rfl, hdata ▸ rfl⟩
        · exact .inl hmem
      · cases hexec
        exact h.read rfl rfl rfl rfl rfl
    · cases hexec
  | insertArtifact sha256 =>
    simp only [Catalog.exec] at hexec
    split at hexec
    · next hfree =>
      split at hexec
      · cases hexec
        exact h.read rfl rfl rfl rfl rfl
      · cases hexec
        exact h.lock hfree rfl rfl (fun sha256 hmem => .inl hmem) fun name heq => by cases heq
    · cases hexec
  | versionInUse name version =>
    cases hexec
    simp only [note]
    split
    · exact h.read rfl rfl rfl rfl rfl
    · exact h.read rfl rfl rfl rfl rfl
  | artifactUsed name version sha256 =>
    obtain ⟨snapshot, -, heq⟩ := Option.map_eq_some_iff.mp hexec
    cases heq
    exact h.read rfl rfl rfl rfl rfl
  | commit writes =>
    simp only [Catalog.exec] at hexec
    split at hexec
    · next tables happly =>
      cases hexec
      exact h.commit hpre happly
    · cases hexec
      exact h.finish state.desired rfl rfl
  | rollback =>
    cases hexec
    exact h.finish state.desired rfl rfl
  | desired op =>
    obtain ⟨⟨_, desired⟩, -, heq⟩ := Option.map_eq_some_iff.mp hexec
    cases heq
    obtain ⟨htables, hholder⟩ : (state.desire t op desired).tables = state.tables ∧
        (state.desire t op desired).holder = state.holder := Center.desire_tables op desired
    exact h.read htables hholder rfl rfl rfl
  | _ =>
    cases hexec
    exact h.read rfl rfl rfl rfl rfl

variable {hosts : String → Skills.Host} {sys sys' : System}

theorem invariant_of_reaches {ok : System → Move Nat Bool Event → Prop}
    (h : (center setup).Reaches ok (initial hosts) sys) :
    Invariant setup.formats sys.shared sys.loc := by
  refine h.invariant (center_obeys setup) (initial_sound setup hosts) ?_ ?_ ?_
  · refine ⟨⟨?_, ?_, ?_, ?_⟩, fun t => threadInv_unlocked rfl rfl⟩
    · intro sha256 data hdata
      cases hdata
    all_goals
      intro row hrow
      cases hrow
  · intro sys t op elsewhere reply state _ hinv _ _ hpre _ hexec
    exact hinv.exec hpre hexec
  · intro sys event sys' _ hinv _ hfire
    cases event with
    | start t request =>
      simp only [center, fire] at hfire
      split at hfire
      · cases hfire
        rw [Machine.loc_update]
        exact hinv.thread rfl (fun _ _ _ hheld => hheld) (threadInv_unlocked rfl rfl)
      · cases hfire
    | abort t =>
      cases hfire
      rw [Machine.loc_update]
      exact hinv.finish _ rfl rfl

/-! ## Versions are kept -/

theorem sha256_of_accepted (h : acceptUpload formats body = .ok package) :
    package.sha256 = formats.sha256 body := by
  unfold acceptUpload at h
  split at h
  · cases h
  · unfold parsePackage at h
    rw [Check.bind_eq_ok] at h
    obtain ⟨files, -, h⟩ := h
    split at h
    · rw [Check.bind_eq_ok] at h
      obtain ⟨_, -, h⟩ := h
      split at h
      · simp only [Check.bind_eq_ok, Check.mapError_eq_ok, Check.pure_eq_ok] at h
        obtain ⟨_, _, _, _, _, _, _, _, _, _, _, _, _, _, _, _, _, _, _, _, rfl⟩ := h
        rfl
      · cases h
    · cases h

theorem Loc.Uploads.unique {body' : Bytes} {package' : ParsedPackage}
    (h : loc.Uploads formats body package) (h' : loc.Uploads formats body' package') :
    body' = body ∧ package' = package := by
  have hrequest := h'.request.symm.trans h.request
  cases hrequest
  have haccept := h'.accepted.symm.trans h.accepted
  cases haccept
  exact ⟨rfl, rfl⟩

theorem Loc.Uploads.not_delete {name version : String} (h : loc.Uploads formats body package)
    (hdelete : loc.request = some (.delete name version)) : False := by
  rw [h.request] at hdelete
  cases hdelete

theorem Loc.found_unique {found found' : Option String} (h : loc.found package found)
    (h' : loc.found package found') : found' = found := by
  have hsame := h'.symm.trans h
  cases hsame
  rfl

/-- The tables after a step of a thread. -/
theorem tables_of_act {ok : System → Move Nat Bool Event → Prop} {elsewhere : Bool}
    (hreach : (center setup).Reaches ok (initial hosts) sys)
    (hstep : (center setup).step sys (.act t elsewhere) = some sys') :
    sys'.shared.tables = sys.shared.tables ∨
      Changed setup.formats (sys.loc t) sys.shared.tables sys'.shared.tables := by
  obtain ⟨op, next, reply, state, hprog, hexec, rfl⟩ := Machine.act_eq_some _ |>.mp hstep
  have hsound := Machine.sound_of_reaches (center_obeys setup) (initial_sound setup hosts) hreach
  have hpre := hsound.pre ⟨next, hprog⟩
  have hthread := (invariant_of_reaches hreach).threads t
  simp only [center] at hexec
  rw [Machine.after_shared]
  cases op with
  | commit writes =>
    simp only [exec] at hexec
    split at hexec
    · next tables happly =>
      cases hexec
      exact .inr (Commits.changed hpre (fun sha256 hmem => (hthread.stored sha256 hmem).2) happly)
    · cases hexec
      exact .inl rfl
  | desired op =>
    obtain ⟨⟨_, desired⟩, -, heq⟩ := Option.map_eq_some_iff.mp hexec
    cases heq
    exact .inl (Center.desire_tables op desired).1
  | artifactUsed name version sha256 =>
    obtain ⟨snapshot, -, heq⟩ := Option.map_eq_some_iff.mp hexec
    cases heq
    exact .inl rfl
  | lockSkill _ | insertSkill _ | lockArtifact _ | insertArtifact _ =>
    simp only [exec] at hexec
    split at hexec
    · split at hexec <;> cases hexec <;> exact .inl rfl
    · cases hexec
  | _ =>
    cases hexec
    exact .inl rfl

theorem tables_of_event {event : Event}
    (hstep : (center setup).step sys (.event event) = some sys') :
    sys'.shared.tables = sys.shared.tables := by
  cases event with
  | start t request =>
    simp only [Machine.step, center, fire] at hstep
    split at hstep
    · cases hstep
      rfl
    · cases hstep
  | abort t =>
    cases hstep
    rfl

/-- An upload whose version is there adds nothing. -/
theorem Changed.existing (h : Changed formats loc tables tables')
    (hup : loc.Uploads formats body package) {row : ParsedPackage} (hrow : row ∈ tables.versions)
    (hname : row.name = package.name) (hversion : row.version = package.version) :
    tables'.skills = tables.skills ∧ tables'.versions = tables.versions := by
  cases h with
  | add hup' hnew hlocked hadds =>
    obtain ⟨rfl, rfl⟩ := hup.unique hup'
    exact absurd ⟨hname, hversion⟩ (hadds.new hrow)
  | ensure hup' hfound hskills hversions hputs => exact ⟨hskills, hversions⟩
  | drop hrequest hseen hlocked hdrops => exact absurd hrequest fun h => hup.not_delete h

/-- An upload that found its version stores its artifact at most. -/
theorem Changed.found (h : Changed formats loc tables tables')
    (hup : loc.Uploads formats body package) {sha256 : String}
    (hfound : loc.found package (some sha256)) :
    sha256 = package.sha256 ∧ tables'.skills = tables.skills ∧
      tables'.versions = tables.versions ∧ Puts formats package.sha256 body tables tables' := by
  cases h with
  | add hup' hnew hlocked hadds =>
    obtain ⟨rfl, rfl⟩ := hup.unique hup'
    exact absurd hfound (hnew sha256)
  | ensure hup' hfound' hskills hversions hputs =>
    obtain ⟨rfl, rfl⟩ := hup.unique hup'
    have hsame := Loc.found_unique hfound' hfound
    exact ⟨Option.some.inj hsame, hskills, hversions, hputs⟩
  | drop hrequest hseen hlocked hdrops => exact absurd hrequest fun h => hup.not_delete h

theorem Puts.eq_of_isSome {sha256 : String} {data : Bytes}
    (h : Puts formats sha256 data tables tables') (hskills : tables'.skills = tables.skills)
    (hversions : tables'.versions = tables.versions) (hsome : (tables.artifacts sha256).isSome) :
    tables' = tables := by
  rcases h.artifacts with heq | ⟨-, hnone, -⟩
  · cases tables
    cases tables'
    cases hskills
    cases hversions
    cases heq
    rfl
  · rw [hnone] at hsome
    cases hsome

theorem answer_of_about {ok : System → Move Nat Bool Event → Prop} {outcome : Outcome}
    (hreach : (center setup).Reaches ok (initial hosts) sys)
    (habout : sys.about t (.respond outcome)) : Answers setup.formats (sys.loc t) outcome :=
  (Machine.sound_of_reaches (center_obeys setup) (initial_sound setup hosts) hreach).pre habout

/-- What an upload that found its version answers. -/
theorem Answers.found {outcome : Outcome} (h : Answers formats loc outcome)
    (hup : loc.Uploads formats body package) {sha256 : String}
    (hfound : loc.found package (some sha256)) :
    sha256 = package.sha256 ∧ (outcome = .registered false package ∨ outcome = .internal) ∨
      sha256 ≠ package.sha256 ∧ outcome = .versionExists := by
  cases h with
  | refused hrequest hrefused =>
    have hbody := hrequest.symm.trans hup.request
    cases hbody
    rw [hup.accepted] at hrefused
    cases hrefused
  | created hup' hnew =>
    obtain ⟨rfl, rfl⟩ := hup.unique hup'
    exact absurd hfound (hnew sha256)
  | again hup' hfound' =>
    obtain ⟨rfl, rfl⟩ := hup.unique hup'
    exact .inl ⟨Option.some.inj (Loc.found_unique hfound' hfound), .inl rfl⟩
  | different hup' hfound' hne =>
    obtain ⟨rfl, rfl⟩ := hup.unique hup'
    exact .inr ⟨Option.some.inj (Loc.found_unique hfound' hfound) ▸ hne, rfl⟩
  | failed hup' hsame =>
    obtain ⟨rfl, rfl⟩ := hup.unique hup'
    exact .inl ⟨hsame sha256 hfound, .inr rfl⟩
  | deletion hrequest => exact absurd hrequest fun h => hup.not_delete h

theorem uploadKept_of_reaches {ok : System → Move Nat Bool Event → Prop}
    (hreach : (center setup).Reaches ok (initial hosts) sys)
    (hup : (sys.loc t).Uploads setup.formats body package) :
    UploadKept setup sys t body package := by
  have hinv := invariant_of_reaches hreach
  have hsha : package.sha256 = setup.formats.sha256 body := sha256_of_accepted hup.accepted
  refine ⟨?_, ?_, fun hfound => ⟨?_, ?_, ?_⟩, ?_⟩
  · intro row hrow hname hversion c sys' hstep
    rcases tables_of_act hreach hstep with heq | hchanged
    · rw [heq]
      exact ⟨rfl, rfl⟩
    · exact hchanged.existing hup hrow hname hversion
  · intro c sys' row data habout hstep hrow hname hversion hdata
    obtain ⟨next, hprog⟩ := habout
    obtain ⟨op, next', reply, state, hprog', hexec, rfl⟩ := Machine.act_eq_some _ |>.mp hstep
    cases hprog.symm.trans hprog'
    cases hexec
    have hrow' := (version_eq_some_iff hinv.tables).mpr ⟨hrow, hname, hversion⟩
    rw [hinv.tables.bytes _ _ hdata, Machine.after_loc, Function.update_self]
    show some (package.name, package.version, _) = _
    rw [hrow']
    rfl
  · intro c sys' hstep
    rcases tables_of_act hreach hstep with heq | hchanged
    · rw [heq]
      exact ⟨rfl, rfl⟩
    · obtain ⟨-, hskills, hversions, -⟩ := hchanged.found hup hfound
      exact ⟨hskills, hversions⟩
  · rintro ⟨row, hrow, hsame⟩ c sys' hstep
    rcases tables_of_act hreach hstep with heq | hchanged
    · exact heq
    · obtain ⟨-, hskills, hversions, hputs⟩ := hchanged.found hup hfound
      refine hputs.eq_of_isSome hskills hversions ?_
      rw [hsha, ← hsame]
      exact hinv.tables.artifact row hrow
  · intro outcome habout
    rcases (answer_of_about hreach habout).found hup hfound with ⟨-, houtcome⟩ | ⟨hne, -⟩
    · exact houtcome
    · exact absurd hsha.symm hne
  · intro data hfound hcollision hdata
    have hne : setup.formats.sha256 data ≠ package.sha256 := fun heq =>
      hdata (hcollision (heq.trans hsha))
    refine ⟨fun c sys' hstep => ?_, fun outcome habout => ?_⟩
    · rcases tables_of_act hreach hstep with heq | hchanged
      · exact heq
      · exact absurd (hchanged.found hup hfound).1 hne
    · rcases (answer_of_about hreach habout).found hup hfound with ⟨heq, -⟩ | ⟨-, houtcome⟩
      · exact absurd heq hne
      · exact houtcome

def sampleSetup : Setup := ⟨Skills.widerFormats, ⟨fun _ => some 0⟩, fun _ _ => true⟩

def plainHosts : String → Skills.Host := fun _ => Skills.freshHost

/-- The upload of a package. -/
def uploadMoves (t : Nat) (steps : Nat) : List (Move Nat Bool Event) :=
  .event (.start t (.upload Skills.widerPackage)) :: List.replicate steps (.act t false)

end Novbot.Catalog
