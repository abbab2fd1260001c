import Novbot.Pack.Loaded

/-!
# Packing and loading

`pack_roundtrip_iff` says of which projects the packed archive is opened by the node with what the
project has, and the rewritten `skill.toml` is read and packed as before.
-/

namespace Novbot.Pack

open Novbot.Package Text Toml
open Skills (loadPackage catalog)

/-! ## What `pack` does -/

section
variable {libraries : Libraries} {project after : Project} {packed : Packed}

theorem write_ok {path : String} {data : Bytes} (h : project.write path data = (.ok (), after)) :
    project.writes path = .ok () ∧ after = project.put path data := by
  unfold Project.write at h
  split at h
  · cases h
  · next hok =>
    cases h
    exact ⟨hok, rfl⟩

theorem write_of_ok {path : String} (hkept : after.writes = project.writes)
    (h : project.writes path = .ok ()) (data : Bytes) :
    after.write path data = (.ok (), after.put path data) := by
  rw [Project.write, hkept, h]

/-- The project after a successful pack. -/
def Project.afterPack (project : Project) (libraries : Libraries) (manifest : Manifest)
    (files : SortedMap String Bytes) (bytes : Bytes) : Project :=
  ((project.put "skill.toml" (utf8 (rendered libraries manifest files).toList)).put
    (fileName manifest) bytes).put (fileName manifest ++ ".sha256")
      (utf8 (libraries.formats.sha256 bytes ++ "\n").toList)

structure Packs (libraries : Libraries) (project : Project) (manifest : Manifest)
    (files : SortedMap String Bytes) (bytes : Bytes) : Prop where
  gathered : gather libraries project = .ok (manifest, files)
  written : libraries.write (members (rendered libraries manifest files) files) = .ok bytes
  writesManifest : project.writes "skill.toml" = .ok ()
  writesPackage : project.writes (fileName manifest) = .ok ()
  writesSum : project.writes (fileName manifest ++ ".sha256") = .ok ()

theorem pack_iff : pack libraries project = (.ok packed, after) ↔ ∃ manifest files bytes,
    Packs libraries project manifest files bytes ∧
      packed = ⟨manifest.name, manifest.version, libraries.formats.sha256 bytes⟩ ∧
      after = project.afterPack libraries manifest files bytes := by
  constructor
  · intro h
    unfold pack at h
    split at h
    · cases h
    · next manifest files hgather =>
      split at h
      · cases h
      · next _ first hfirst =>
        obtain ⟨hmanifest, rfl⟩ := write_ok hfirst
        split at h
        · cases h
        · next bytes hbytes =>
          split at h
          · cases h
          · next _ second hsecond =>
            obtain ⟨hpackage, rfl⟩ := write_ok hsecond
            split at h
            · cases h
            · next _ third hthird =>
              obtain ⟨hsum, rfl⟩ := write_ok hthird
              cases h
              exact ⟨manifest, files, bytes, ⟨hgather, hbytes, hmanifest, hpackage, hsum⟩, rfl, rfl⟩
  · rintro ⟨manifest, files, bytes, h, rfl, rfl⟩
    have hfirst := @write_of_ok project project _ rfl h.writesManifest
      (utf8 (rendered libraries manifest files).toList)
    have hsecond := @write_of_ok project
      (project.put "skill.toml" (utf8 (rendered libraries manifest files).toList)) _ rfl
      h.writesPackage bytes
    have hthird := @write_of_ok project
      ((project.put "skill.toml" (utf8 (rendered libraries manifest files).toList)).put
        (fileName manifest) bytes) _ rfl h.writesSum (utf8 (libraries.formats.sha256 bytes ++ "\n").toList)
    unfold pack
    rw [h.gathered]
    dsimp only
    rw [hfirst]
    dsimp only
    rw [h.written]
    dsimp only
    rw [hsecond]
    dsimp only
    rw [hthird]
    rfl

end

/-! ## The project after a pack -/

section
variable {libraries : Libraries} {project project' : Project}

/-- The files that `pack` reads, besides the manifest. -/
def inputPaths : List String :=
  [modulePath, "schema/params.json", "schema/output.json", "README.md", "LICENSE"]

theorem read_congr {path : String} (h : project'.files path = project.files path) :
    project'.read path = project.read path := by
  rw [Project.read, Project.read, h]

theorem addOptional_congr {path : String} (h : project'.files path = project.files path)
    (files : SortedMap String Bytes) :
    addOptional libraries project' files path = addOptional libraries project files path := by
  rw [addOptional, addOptional, h, read_congr h]

theorem contents_congr (h : ∀ path ∈ inputPaths, project'.files path = project.files path) :
    contents libraries project' = contents libraries project := by
  simp only [inputPaths, List.forall_mem_cons] at h
  obtain ⟨hmodule, hparams, houtput, hreadme, hlicense, -⟩ := h
  simp only [contents, readJsonFile, List.foldlM_cons, List.foldlM_nil, read_congr hmodule, read_congr hparams,
    addOptional_congr houtput, addOptional_congr hreadme, addOptional_congr hlicense]

theorem put_files {path other : String} (h : other ≠ path) (data : Bytes) :
    (project.put path data).files other = project.files other := if_neg h

theorem put_read (path : String) (data : Bytes) : (project.put path data).read path = .ok data := by
  have hfound : (project.put path data).files path =
      some ⟨((project.files path).map (·.kind)).getD .file, .ok data⟩ := if_pos rfl
  rw [Project.read, hfound]
  rfl

/-- No input of `pack` has the name of a package or of its hash. -/
theorem ne_fileName {path : String} (h : path ∈ "skill.toml" :: inputPaths) (manifest : Manifest) :
    path ≠ fileName manifest ∧ path ≠ fileName manifest ++ ".sha256" := by
  have hsuffix : ∀ path ∈ "skill.toml" :: inputPaths, ".nbskill".toList.isSuffixOf path.toList = false ∧
      ".sha256".toList.isSuffixOf path.toList = false := by decide +kernel
  obtain ⟨hpackage, hsum⟩ := hsuffix path h
  constructor
  · rintro rfl
    have hends : ".nbskill".toList <:+ (fileName manifest).toList := by
      rw [fileName, String.toList_append]
      exact List.suffix_append _ _
    rw [List.isSuffixOf_iff_suffix.mpr hends] at hpackage
    cases hpackage
  · rintro rfl
    have hends : ".sha256".toList <:+ (fileName manifest ++ ".sha256").toList := by
      rw [String.toList_append]
      exact List.suffix_append _ _
    rw [List.isSuffixOf_iff_suffix.mpr hends] at hsum
    cases hsum

variable {manifest : Manifest} {files : SortedMap String Bytes} {bytes : Bytes}

theorem afterPack_files {path : String} (h : path ∈ inputPaths) :
    (project.afterPack libraries manifest files bytes).files path = project.files path := by
  obtain ⟨hpackage, hsum⟩ := ne_fileName (.tail _ h) manifest
  have hmanifest : path ≠ "skill.toml" := by
    rintro rfl
    exact absurd h (by decide)
  rw [Project.afterPack, put_files hsum, put_files hpackage, put_files hmanifest]

theorem afterPack_manifest : (project.afterPack libraries manifest files bytes).read "skill.toml" =
    .ok (utf8 (rendered libraries manifest files).toList) := by
  obtain ⟨hpackage, hsum⟩ := ne_fileName List.mem_cons_self manifest
  rw [Project.afterPack, read_congr (put_files hsum _), read_congr (put_files hpackage _), put_read]

theorem afterPack_package :
    (project.afterPack libraries manifest files bytes).read (fileName manifest) = .ok bytes := by
  have hne : fileName manifest ≠ fileName manifest ++ ".sha256" := by
    intro heq
    have hlength := congrArg String.length heq
    rw [String.length_append] at hlength
    exact absurd hlength (by simp)
  rw [Project.afterPack, read_congr (put_files hne _), put_read]

theorem afterPack_loadFile : loadFile (project.afterPack libraries manifest files bytes) =
    .ok (rendered libraries manifest files) := by
  rw [loadFile, Check.bind_eq_ok]
  refine ⟨_, afterPack_manifest, ?_⟩
  rw [fromUtf8_utf8]
  exact congrArg Except.ok String.ofList_toList

theorem gather_iff : gather libraries project = .ok (manifest, files) ↔ ∃ text,
    loadFile project = .ok text ∧ parse libraries.formats text = .ok manifest ∧
      checkNames manifest = .ok () ∧ contents libraries project = .ok files := by
  simp only [gather, Check.bind_eq_ok, Check.pure_eq_ok, Prod.mk.injEq]
  constructor
  · rintro ⟨text, htext, manifest, hparse, ⟨⟩, hnames, files, hfiles, rfl, rfl⟩
    exact ⟨text, htext, hparse, hnames, hfiles⟩
  · rintro ⟨text, htext, hparse, hnames, hfiles⟩
    exact ⟨text, htext, manifest, hparse, (), hnames, files, hfiles, rfl, rfl⟩

/-- A project whose written manifest is read as before is packed as before. -/
theorem Packs.again (h : Packs libraries project manifest files bytes)
    (hparse : parse libraries.formats (rendered libraries manifest files) = .ok manifest) :
    Packs libraries (project.afterPack libraries manifest files bytes) manifest files bytes := by
  obtain ⟨text, -, -, hnames, hfiles⟩ := gather_iff.mp h.gathered
  refine ⟨gather_iff.mpr ⟨_, afterPack_loadFile, hparse, hnames, ?_⟩, h.written, h.writesManifest,
    h.writesPackage, h.writesSum⟩
  rw [contents_congr fun path hpath => afterPack_files hpath]
  exact hfiles

end

/-! ## Texts that cannot be read -/

theorem head_escaped {text : List Char} {next : Char} (hnext : next ≠ '\n') (rest : List Char) :
    (text.flatMap escape ++ next :: rest).head? ≠ some '\n' := by
  cases text with
  | nil => exact fun h => hnext (Option.some.inj h)
  | cons c text =>
    rw [List.flatMap_cons]
    unfold escape
    split
    · exact fun h => by cases h
    · exact fun h => by cases h
    · exact fun h => by cases h
    · next hback hquote hline => exact fun h => hline (Option.some.inj h)

/-- A control character that is written as it is makes the text no document. -/
theorem strayControl_within {value : String} {cs : List Char} (h : ¬ Printable value)
    (hwithin : (tomlString value).toList <:+: cs) : StrayControl cs := by
  obtain ⟨before, after, rfl⟩ := hwithin
  simp only [Printable, not_forall] at h
  obtain ⟨c, hmem, hcontrol, hline⟩ := h
  obtain ⟨front, rear, hvalue⟩ := List.append_of_mem hmem
  have hescape : escape c = [c] := by
    unfold escape
    split
    · cases hcontrol
    · cases hcontrol
    · exact absurd rfl hline
    · rfl
  refine ⟨before ++ '"' :: front.flatMap escape, c, rear.flatMap escape ++ '"' :: after, ?_, hcontrol,
    hline, fun hreturn => head_escaped (by decide) after hreturn.2⟩
  rw [toList_tomlString, quoted, hvalue, List.flatMap_append, List.flatMap_cons, hescape]
  simp

/-- The parts of a rendered manifest. -/
def pieces (manifest : Manifest) (files : SortedMap String String) : List String :=
  ["schema_version = 1\n", pushStr "name" manifest.name, pushStr "version" manifest.version,
    pushOption "display_name" manifest.displayName, pushOption "description" manifest.description,
    pushOption "publisher" manifest.publisher, pushOption "min_node_version" manifest.minNodeVersion,
    renderPlatforms manifest.platforms, "\n[runtime]\nkind = \"wasm\"\nabi = \"novbot:skill@1\"\n",
    renderLimits manifest, "\n[files]\n", String.join (files.entries.map renderFile), "\n"] ++
    manifest.capabilities.map renderCapability

theorem toList_render (manifest : Manifest) (files : SortedMap String String) :
    (render manifest files).toList = (pieces manifest files).flatMap String.toList := by
  unfold render pieces
  simp only [String.toList_append, String.toList_join, List.flatMap_append,
    List.flatMap_cons, List.flatMap_nil, List.flatMap_map, List.append_assoc, List.append_nil]

theorem infix_pushStr (key value : String) : (tomlString value).toList <:+: (pushStr key value).toList := by
  rw [pushStr, String.toList_append, String.toList_append, String.toList_append]
  exact List.infix_append _ _ _

theorem infix_pushOption {key text : String} {value : Option String} (h : text ∈ value) :
    (tomlString text).toList <:+: (pushOption key value).toList := by
  cases h
  exact infix_pushStr key text

theorem infix_intercalate {sep item : List Char} {items : List (List Char)} (h : item ∈ items) :
    item <:+: List.intercalate sep items := by
  induction items with
  | nil => cases h
  | cons first items ih =>
    cases items with
    | nil =>
      rw [List.mem_singleton.mp h, List.intercalate_singleton]
    | cons next items =>
      rw [List.intercalate_cons_cons]
      cases h with
      | head => exact ⟨[], sep ++ List.intercalate sep (next :: items), by simp⟩
      | tail _ h => exact (ih h).trans (List.suffix_append _ _).isInfix

theorem infix_renderPlatforms {text : String} {platforms : List String} (h : text ∈ platforms) :
    (tomlString text).toList <:+: (renderPlatforms platforms).toList := by
  have hitem : (tomlString text).toList ∈ (platforms.map String.toList).map fun item =>
      quoted (item.flatMap escape) := by
    rw [toList_tomlString]
    exact List.mem_map_of_mem (List.mem_map_of_mem h)
  obtain ⟨before, after, hparts⟩ := @infix_intercalate [',', ' '] _ _ hitem
  rw [toList_renderPlatforms (List.ne_nil_of_mem h), ← hparts]
  exact ⟨"platforms".toList ++ ' ' :: '=' :: ' ' :: '[' :: before, after ++ [']', '\n'], by simp⟩

theorem infix_renderCapability {cap : Capability} {text : String}
    (h : text ∈ cap.name :: (cap.scope.toList ++ cap.reason.toList)) :
    (tomlString text).toList <:+: (renderCapability cap).toList := by
  have hparts : (renderCapability cap).toList = ["[[capabilities]]\n", pushStr "name" cap.name,
      pushOption "scope" cap.scope, pushOption "reason" cap.reason, "\n"].flatMap String.toList := by
    unfold renderCapability
    simp only [String.toList_append, List.flatMap_cons, List.flatMap_nil, List.append_assoc,
      List.append_nil]
  have hpiece : ∃ piece ∈ ["[[capabilities]]\n", pushStr "name" cap.name, pushOption "scope" cap.scope,
      pushOption "reason" cap.reason, "\n"], (tomlString text).toList <:+: piece.toList := by
    simp only [List.mem_cons, List.mem_append, Option.mem_toList] at h
    rcases h with rfl | h | h
    · exact ⟨_, by simp, infix_pushStr "name" _⟩
    · exact ⟨_, by simp, @infix_pushOption "scope" _ _ h⟩
    · exact ⟨_, by simp, @infix_pushOption "reason" _ _ h⟩
  obtain ⟨piece, hmem, hwithin⟩ := hpiece
  rw [hparts, List.flatMap_def]
  exact hwithin.trans (List.infix_of_mem_flatten (List.mem_map_of_mem hmem))

/-- Every text of the manifest is written as a string. -/
theorem infix_render {manifest : Manifest} {files : SortedMap String String} {text : String}
    (h : text ∈ manifest.texts) : (tomlString text).toList <:+: (render manifest files).toList := by
  have hpiece : ∃ piece ∈ pieces manifest files, (tomlString text).toList <:+: piece.toList := by
    simp only [Manifest.texts, List.mem_append, List.mem_cons, List.not_mem_nil, or_false,
      List.mem_flatMap, Option.mem_toList] at h
    rcases h with ((((((rfl | rfl) | h) | h) | h) | h) | h) | ⟨cap, hcap, h⟩
    · exact ⟨_, by simp [pieces], infix_pushStr "name" _⟩
    · exact ⟨_, by simp [pieces], infix_pushStr "version" _⟩
    · exact ⟨_, by simp [pieces], @infix_pushOption "display_name" _ _ h⟩
    · exact ⟨_, by simp [pieces], @infix_pushOption "description" _ _ h⟩
    · exact ⟨_, by simp [pieces], @infix_pushOption "publisher" _ _ h⟩
    · exact ⟨_, by simp [pieces], @infix_pushOption "min_node_version" _ _ h⟩
    · exact ⟨_, by simp [pieces], infix_renderPlatforms h⟩
    · refine ⟨renderCapability cap, ?_, infix_renderCapability ?_⟩
      · exact List.mem_append_right _ (List.mem_map_of_mem hcap)
      · simpa using h
  obtain ⟨piece, hmem, hwithin⟩ := hpiece
  rw [toList_render, List.flatMap_def]
  exact hwithin.trans (List.infix_of_mem_flatten (List.mem_map_of_mem hmem))

/-! ## Which projects come back -/

/-- `skill.toml` can be written again as it is read: its strings have no control character but tabs
and line feeds, and no scope has white space at an end. -/
structure RawCapability.Plain (raw : RawCapability) : Prop where
  preferred : ∀ preferred, raw.preferred = .ok preferred → Printable preferred
  scope : ∀ preferred name scope, raw.preferred = .ok preferred →
    splitOnce ':' preferred.toList = some (name, scope) → trim scope = scope
  reason : ∀ reason ∈ nonempty raw.reason, Printable reason

def RawManifest.texts (raw : RawManifest) : List String :=
  [trimmed raw.name, trimmed raw.version] ++ (nonempty raw.displayName).toList ++
    (nonempty raw.description).toList ++ (nonempty raw.publisher).toList ++
    (nonempty raw.minNodeVersion).toList ++ raw.platforms

structure RawManifest.Plain (raw : RawManifest) : Prop where
  texts : ∀ text ∈ raw.texts, Printable text
  capabilities : ∀ cap ∈ raw.capabilities, cap.Plain

/-- The package has what was packed, and the written manifest is read and packed as before. -/
structure RoundTrips (libraries : Libraries) (after : Project) (manifest : Manifest)
    (files : SortedMap String Bytes) (bytes : Bytes) : Prop where
  loads : ∃ package, loadPackage libraries.formats bytes = .ok package ∧
    package.manifest.name = manifest.name ∧ package.manifest.version = manifest.version ∧
    package.manifest.platforms = manifest.platforms ∧
    package.manifest.timeoutMs = manifest.timeoutMs ∧ package.manifest.memoryMb = manifest.memoryMb ∧
    package.manifest.grants = manifest.grants ∧
    ∀ path, path ≠ "skill.toml" → package.files.lookup path = files.lookup path
  parses : ∃ text, loadFile after = .ok text ∧ parse libraries.formats text = .ok manifest
  again : ∃ packed again, pack libraries after = (.ok packed, again) ∧
    again.read (fileName manifest) = .ok bytes

theorem printable_append {a b : String} : Printable (a ++ b) ↔ Printable a ∧ Printable b := by
  simp only [Printable, String.toList_append, List.forall_mem_append]

theorem printable_grant {cap : Capability} :
    Printable cap.grant ↔ Printable cap.name ∧ ∀ scope ∈ cap.scope, Printable scope := by
  obtain ⟨name, scope, reason⟩ := cap
  cases scope with
  | none => exact ⟨fun h => ⟨h, nofun⟩, fun h => h.1⟩
  | some scope =>
    have hcolon : Printable ":" := by decide
    show Printable (name ++ ":" ++ scope) ↔ _
    rw [printable_append, printable_append, and_iff_left hcolon]
    simp

theorem plain_capability_iff {raw : RawCapability} {cap : Capability}
    (h : normalizeCapability raw = .ok cap) : raw.Plain ↔
      (∀ text ∈ cap.name :: (cap.scope.toList ++ cap.reason.toList), Printable text) ∧
        ∀ scope ∈ cap.scope, trimmed scope = scope := by
  obtain ⟨hpreferred, hreason, hsound⟩ := normalizeCapability_iff.mp h
  rw [List.forall_mem_cons, List.forall_mem_append]
  have hscope : (∀ name scope, splitOnce ':' cap.grant.toList = some (name, scope) → trim scope = scope) ↔
      ∀ scope ∈ cap.scope, trimmed scope = scope := by
    obtain ⟨name, scope, reason⟩ := cap
    cases scope with
    | none =>
      have hnone : splitOnce ':' (Capability.grant ⟨name, none, reason⟩).toList = none :=
        splitOnce_none.mpr hsound.colon
      simp [hnone]
    | some scope =>
      have hsome : splitOnce ':' (Capability.grant ⟨name, some scope, reason⟩).toList =
          some (name.toList, scope.toList) :=
        splitOnce_some.mpr ⟨toList_grant name scope reason, hsound.colon⟩
      have htrim : trim scope.toList = scope.toList ↔ trimmed scope = scope := by
        rw [trimmed, ← String.toList_inj, String.toList_ofList]
      simp [hsome, htrim]
  constructor
  · intro hplain
    obtain ⟨hname, hscopes⟩ := printable_grant.mp (hplain.preferred _ hpreferred)
    refine ⟨⟨hname, fun text htext => hscopes text (Option.mem_toList.mp htext), fun text htext => ?_⟩,
      hscope.mp fun name scope hsplit => hplain.scope _ name scope hpreferred hsplit⟩
    rw [hreason] at htext
    exact hplain.reason text (Option.mem_toList.mp htext)
  · rintro ⟨⟨hname, hscopes, hreasons⟩, htrimmed⟩
    refine ⟨fun preferred hok => ?_, fun preferred name scope hok hsplit => ?_, fun reason hmem => ?_⟩
    · rw [hpreferred] at hok
      cases hok
      exact printable_grant.mpr ⟨hname, fun scope hmem => hscopes scope (Option.mem_toList.mpr hmem)⟩
    · rw [hpreferred] at hok
      cases hok
      exact hscope.mpr htrimmed name scope hsplit
    · rw [← hreason] at hmem
      exact hreasons reason (Option.mem_toList.mpr hmem)

theorem plain_iff {raw : RawManifest} {manifest : Manifest} (h : Normalizes raw manifest) :
    raw.Plain ↔ (∀ text ∈ manifest.texts, Printable text) ∧
      ∀ cap ∈ manifest.capabilities, ∀ scope ∈ cap.scope, trimmed scope = scope := by
  have hcaps : (∀ cap ∈ raw.capabilities, cap.Plain) ↔ ∀ cap ∈ manifest.capabilities,
      (∀ text ∈ cap.name :: (cap.scope.toList ++ cap.reason.toList), Printable text) ∧
        ∀ scope ∈ cap.scope, trimmed scope = scope := by
    constructor
    · intro hplain cap hcap
      obtain ⟨source, hsource, hnormal⟩ := Check.exists_of_mem_right h.capabilities hcap
      exact (plain_capability_iff hnormal).mp (hplain source hsource)
    · intro hplain source hsource
      obtain ⟨cap, hcap, hnormal⟩ := Check.exists_of_mem_left h.capabilities hsource
      exact (plain_capability_iff hnormal).mpr (hplain cap hcap)
  have htexts : manifest.texts = raw.texts ++
      manifest.capabilities.flatMap fun cap => cap.name :: (cap.scope.toList ++ cap.reason.toList) := by
    rw [Manifest.texts, RawManifest.texts, h.name, h.version, h.displayName, h.description, h.publisher,
      h.minNodeVersion, h.platforms]
  rw [htexts, List.forall_mem_append, List.forall_mem_flatMap]
  constructor
  · intro hplain
    have hall := hcaps.mp hplain.capabilities
    exact ⟨⟨hplain.texts, fun cap hcap => (hall cap hcap).1⟩, fun cap hcap => (hall cap hcap).2⟩
  · rintro ⟨⟨hraw, hnames⟩, hscopes⟩
    exact ⟨hraw, hcaps.mpr fun cap hcap => ⟨hnames cap hcap, hscopes cap hcap⟩⟩

theorem optional_small {get : String → Option Toml} {name : String} {value : Option Nat}
    (h : Toml.optional get name Toml.word = .ok value) : ∀ n ∈ value, n < 2 ^ 63 := by
  intro n hn
  cases hn
  unfold Toml.optional at h
  split at h
  · next found _ =>
    cases hword : Toml.word found with
    | error err =>
      rw [hword] at h
      cases h
    | ok m =>
      rw [hword] at h
      cases h
      unfold Toml.word at hword
      split at hword
      · split_ifs at hword with hsmall
        cases hword
        exact hsmall
      · cases hword
  · cases h

theorem decode_limits_small {value : Toml} {limits : RawLimits}
    (h : RawLimits.decode value = .ok limits) :
    (∀ n ∈ limits.timeoutMs, n < 2 ^ 63) ∧ ∀ n ∈ limits.memoryMb, n < 2 ^ 63 := by
  simp only [RawLimits.decode, Check.bind_eq_ok, Check.pure_eq_ok] at h
  obtain ⟨get, -, timeout, htimeout, memory, hmemory, rfl⟩ := h
  exact ⟨optional_small htimeout, optional_small hmemory⟩

/-- Numbers of documents are signed words. -/
theorem decode_small {value : Toml} {raw : RawManifest} (h : RawManifest.decode value = .ok raw) :
    (∀ n ∈ raw.runtime.limits.timeoutMs, n < 2 ^ 63) ∧ ∀ n ∈ raw.runtime.limits.memoryMb, n < 2 ^ 63 := by
  simp only [RawManifest.decode, Check.bind_eq_ok, Check.pure_eq_ok] at h
  obtain ⟨get, -, _, -, _, -, _, -, _, -, _, -, _, -, _, -, _, -, runtime, hruntime, _, -, rfl⟩ := h
  unfold Toml.required at hruntime
  split at hruntime
  · simp only [RawRuntime.decode, Check.bind_eq_ok, Check.pure_eq_ok] at hruntime
    obtain ⟨get', -, _, -, _, -, limits, hlimits, rfl⟩ := hruntime
    unfold Toml.orDefault at hlimits
    split at hlimits
    · exact decode_limits_small hlimits
    · cases hlimits
      exact ⟨nofun, nofun⟩
  · cases hruntime

theorem printable_manifest {formats : Formats} {text : String} {raw : RawManifest}
    {manifest : Manifest} (hraw : readRaw formats text = .ok raw) (h : Normalizes raw manifest)
    (htexts : ∀ text ∈ manifest.texts, Printable text) : manifest.Printable := by
  rw [readRaw, Check.mapError_eq_ok] at hraw
  cases hdoc : formats.toml text with
  | error err =>
    rw [hdoc] at hraw
    cases hraw
  | ok doc =>
    rw [hdoc] at hraw
    obtain ⟨htimeout, hmemory⟩ := decode_small hraw
    refine ⟨htexts, ?_, ?_⟩
    · rw [h.timeoutMs]
      exact htimeout
    · rw [h.memoryMb]
      exact hmemory

theorem parse_of_readRaw {formats : Formats} {text : String} {raw : RawManifest}
    (h : readRaw formats text = .ok raw) : parse formats text = normalize raw := by
  rw [parse, h]
  rfl

theorem trimmed_catalog : ∀ name ∈ catalog, trimmed name = name := by decide +kernel

section
variable {libraries : Libraries} {project after : Project} {packed : Packed} {manifest : Manifest}
  {files : SortedMap String Bytes} {bytes : Bytes} {text : String} {raw : RawManifest}

/-- Of every project that is packed, with sizes that the node allows and capabilities of its
catalog: the package is opened with what was packed, and the rewritten manifest is read and packed
as before, if and only if the manifest can be written again as it was read. -/
theorem pack_roundtrip_iff (laws : libraries.Laws)
    (hpack : pack libraries project = (.ok packed, after))
    (hgather : gather libraries project = .ok (manifest, files))
    (htext : loadFile project = .ok text) (hraw : readRaw libraries.formats text = .ok raw)
    (hbytes : after.read (fileName manifest) = .ok bytes)
    (hfits : Fits (rendered libraries manifest files) files bytes)
    (hcatalog : ∀ cap ∈ manifest.capabilities, cap.name ∈ catalog) :
    RoundTrips libraries after manifest files bytes ↔ raw.Plain := by
  obtain ⟨manifest', files', bytes', hpacks, rfl, rfl⟩ := pack_iff.mp hpack
  have hsame := hpacks.gathered
  rw [hgather] at hsame
  cases hsame
  rw [afterPack_package] at hbytes
  cases hbytes
  obtain ⟨text', htext', hparse, -, hcontents⟩ := gather_iff.mp hgather
  rw [htext] at htext'
  cases htext'
  have hnormalize : normalize raw = .ok manifest := by
    rwa [parse_of_readRaw hraw] at hparse
  obtain ⟨haccepted, hnormalizes⟩ := normalize_iff.mp hnormalize
  have hnormal := hnormalizes.normal haccepted
  have hknown := contents_known hcontents
  have hnames : ∀ cap ∈ manifest.capabilities, trimmed cap.name = cap.name := fun cap hcap =>
    trimmed_catalog _ (hcatalog cap hcap)
  have hgood := hashes_good laws hknown
  have hreparse : (∀ text ∈ manifest.texts, Printable text) →
      parse libraries.formats (rendered libraries manifest files) = normalize (rawOf manifest) := by
    intro htexts
    have hread := readRaw_render laws.toml (printable_manifest hraw hnormalizes htexts)
      fun file hmem => ⟨(hgood file hmem).1, (hgood file hmem).2.1⟩
    exact parse_of_readRaw hread
  refine Iff.trans ?_ (plain_iff hnormalizes).symm
  constructor
  · intro h
    obtain ⟨again, hagain, hparses⟩ := h.parses
    rw [afterPack_loadFile] at hagain
    cases hagain
    have htexts : ∀ text ∈ manifest.texts, Printable text := by
      intro text hmem
      by_contra hbad
      obtain ⟨err, herr⟩ := laws.toml.control _ (strayControl_within hbad
        (@infix_render manifest (hashes libraries files) text hmem))
      rw [parse, rendered, readRaw, herr] at hparses
      cases hparses
    rw [hreparse htexts] at hparses
    exact ⟨htexts, (normalize_rawOf hnormal hnames).mp hparses⟩
  · rintro ⟨htexts, hscopes⟩
    have hparses := (hreparse htexts).trans ((normalize_rawOf hnormal hnames).mpr hscopes)
    have hload := loadPackage_pack laws (printable_manifest hraw hnormalizes htexts) hnormal hcatalog
      hknown hfits hpacks.written
    refine ⟨⟨_, hload, rfl, rfl, rfl, rfl, rfl, rfl, fun path hpath => ?_⟩, ⟨_, afterPack_loadFile, hparses⟩,
      _, _, pack_iff.mpr ⟨_, _, _, hpacks.again hparses, rfl, rfl⟩, afterPack_package⟩
    rw [SortedMap.lookup_insert, if_neg hpath]

end

/-! ### Two projects -/

def wasmModule : Bytes := [0x00, 0x61, 0x73, 0x6D, 0x0D, 0x00, 0x01, 0x00]

/-- The empty object. -/
def paramsSchema : Bytes := [0x7B, 0x7D]

def uptimeFiles : SortedMap String Bytes :=
  ⟨[("module.wasm", wasmModule), ("schema/params.json", paramsSchema)], by
    have hless : "module.wasm" < "schema/params.json" := by decide
    simpa using hless⟩

def uptimeManifest (description : Option String) : Manifest :=
  ⟨"uptime", "1.0.0", none, description, none, ["linux/amd64"], none, some 5000, none,
    [⟨"fs.read", some "/proc/uptime", some "reads \"uptime\""⟩]⟩

def uptimeProject (manifest : String) : Project where
  files path :=
    ([("skill.toml", utf8 manifest.toList), (modulePath, wasmModule),
      ("schema/params.json", paramsSchema)].lookup path).map fun data => ⟨.file, .ok data⟩
  writes _ := .ok ()

/-- The hashes of the files, and of a package. -/
def uptimeHash (package : Bytes) (hash : String) (bytes : Bytes) : String :=
  if bytes = wasmModule then "24eaf3439a60c96764c4f2c92a0a81b52bd4fe5d5b91f090184a0f6486b1bf29"
  else if bytes = package then hash
  else "44136fa355b3678a1146ad16f7e8649e94fb4fc21fe77e8310c060f61caaff8a"

/-- The manifest that is written. -/
def uptimeRendered (description : Option String) (package : Bytes) (hash : String) : String :=
  render (uptimeManifest description) (uptimeFiles.map fun _ => uptimeHash package hash)

/-- What the writer is asked for. -/
def uptimeMembers (description : Option String) (package : Bytes) (hash : String) : List Member :=
  members (uptimeRendered description package hash) uptimeFiles

/-- The libraries, as far as one package needs them. -/
def uptimeLibraries (description : Option String) (package : Bytes) (hash : String) : Libraries where
  formats := {
    archive := fun bytes =>
      if bytes = package then
        .ok ((uptimeMembers description package hash).map fun member => .ok ⟨member.header.kind,
          .ok (utf8 member.path.toList), .ok member.header.size, .ok member.data⟩)
      else .error "invalid gzip header"
    toml := plainReader
    json := ⟨fun _ => some (.obj []), fun _ => "\x7b\x7d"⟩
    sha256 := uptimeHash package hash
    semver := fun text => if text = "1.0.0" then some ⟨1, 0, 0, "", "1.0.0"⟩ else none }
  write members :=
    if members = uptimeMembers description package hash then .ok package else .error "no space left"

theorem uptimeLibraries_laws {description : Option String} {package : Bytes} {hash : String}
    (hhash : isLowerHex64 hash = true) : (uptimeLibraries description package hash).Laws where
  toml := plainReader_conforms
  archive members bytes hwrite _ := by
    simp only [uptimeLibraries] at hwrite
    split_ifs at hwrite with hmembers
    cases hwrite
    subst hmembers
    refine ⟨(uptimeMembers description package hash).map fun member => ⟨member.header.kind,
      .ok (utf8 member.path.toList), .ok member.header.size, .ok member.data⟩, ?_, ?_⟩
    · simp only [uptimeLibraries, if_true, List.map_map]
      rfl
    · rw [List.forall₂_map_right_iff, List.forall₂_same]
      exact fun member _ => ⟨rfl, .inl rfl, rfl, rfl⟩
  sha256 bytes := by
    simp only [uptimeLibraries, uptimeHash]
    split_ifs
    · decide
    · exact hhash
    · decide

def uptimePackage : Bytes :=
  [31, 139, 8, 0, 0, 0, 0, 0, 0, 255, 237, 151, 239, 138, 220, 32, 16, 192, 183, 95, 133, 190, 67,
   240, 1, 178, 106, 212, 36, 7, 133, 190, 199, 222, 114, 76, 140, 82, 123, 49, 134, 152, 92, 11,
   165, 239, 94, 221, 109, 187, 199, 30, 229, 190, 52, 155, 210, 203, 239, 139, 58, 234, 204, 248,
   103, 70, 116, 190, 157, 59, 157, 127, 129, 224, 118, 75, 65, 34, 146, 243, 83, 25, 185, 46, 9,
   161, 207, 234, 73, 78, 9, 17, 108, 151, 145, 197, 60, 122, 198, 28, 38, 24, 179, 236, 22, 166,
   254, 73, 226, 193, 191, 223, 189, 91, 219, 139, 141, 149, 8, 234, 147, 118, 176, 172, 141, 20,
   212, 165, 16, 127, 142, 255, 23, 245, 146, 72, 185, 203, 196, 178, 110, 157, 121, 227, 241, 127,
   62, 255, 253, 0, 35, 184, 144, 127, 14, 190, 255, 251, 54, 94, 205, 255, 132, 93, 229, 127, 90,
   208, 98, 203, 255, 183, 224, 219, 247, 181, 61, 216, 88, 147, 240, 104, 187, 46, 159, 188, 235,
   150, 179, 241, 90, 252, 75, 201, 174, 243, 127, 201, 248, 22, 255, 183, 224, 156, 255, 31, 158,
   244, 24, 172, 239, 179, 15, 25, 69, 61, 56, 29, 43, 120, 30, 38, 235, 52, 70, 151, 62, 76, 115,
   146, 19, 140, 134, 14, 38, 227, 71, 23, 162, 236, 128, 59, 219, 207, 95, 247, 224, 90, 201, 241,
   17, 161, 195, 56, 247, 105, 226, 17, 61, 218, 190, 77, 179, 210, 231, 2, 35, 104, 108, 106, 244,
   254, 169, 241, 211, 221, 233, 222, 125, 164, 248, 50, 62, 239, 172, 179, 83, 56, 162, 212, 240,
   243, 244, 112, 82, 47, 226, 133, 136, 99, 140, 237, 116, 236, 194, 238, 242, 93, 193, 73, 27,
   227, 26, 76, 193, 139, 26, 36, 81, 181, 44, 37, 87, 220, 48, 85, 51, 32, 80, 209, 70, 176, 166,
   229, 70, 139, 86, 52, 53, 53, 164, 38, 180, 226, 64, 140, 228, 149, 108, 104, 99, 88, 141, 17,
   126, 249, 2, 158, 52, 115, 78, 11, 105, 160, 16, 162, 41, 100, 89, 1, 165, 92, 66, 75, 165, 41,
   117, 37, 121, 173, 107, 110, 26, 110, 20, 163, 70, 151, 81, 84, 80, 162, 136, 140, 170, 169, 2,
   48, 166, 130, 180, 178, 131, 130, 33, 46, 187, 179, 147, 141, 222, 31, 127, 239, 172, 9, 249,
   168, 161, 197, 40, 40, 63, 156, 36, 251, 97, 244, 106, 255, 107, 199, 99, 103, 56, 111, 120, 26,
   22, 178, 251, 159, 103, 113, 143, 163, 214, 181, 111, 204, 198, 198, 198, 255, 194, 15, 117,
   211, 3, 19, 0, 18, 0, 0]

def uptimePackageHash : String := "a74450ee3032542e69c9acf4dfb07b2f68fce39fb7ac7dfb5e7e336fa28363b8"

/-- The manifest of the first project. -/
def uptimeText : String := uptimeRendered none uptimePackage uptimePackageHash

section
variable {description : Option String} {package : Bytes} {hash text : String} {raw : RawManifest}

theorem uptime_contents : contents (uptimeLibraries description package hash) (uptimeProject text) =
    .ok uptimeFiles := by
  have hmodule : (uptimeProject text).read modulePath = .ok wasmModule := rfl
  have hparams : readJsonFile (uptimeLibraries description package hash) (uptimeProject text)
      "schema/params.json" = .ok paramsSchema := rfl
  have hnone : ∀ files, ∀ path ∈ ["schema/output.json", "README.md", "LICENSE"],
      addOptional (uptimeLibraries description package hash) (uptimeProject text) files path =
        .ok files := by
    simp only [List.forall_mem_cons]
    exact fun files => ⟨rfl, rfl, rfl, nofun⟩
  have hmagic : ¬ ((!wasmMagic.isPrefixOf wasmModule) = true) := by decide
  rw [contents, Check.bind_eq_ok]
  refine ⟨wasmModule, hmodule, ?_⟩
  simp only [List.foldlM_cons, List.foldlM_nil, Check.throw_bind, Check.ite_throw_eq_ok,
    Check.bind_eq_ok]
  exact ⟨hmagic, paramsSchema, hparams, uptimeFiles, hnone _ _ (by simp),
    uptimeFiles, hnone _ _ (by simp), uptimeFiles, hnone _ _ (by simp), rfl⟩

theorem uptime_loadFile : loadFile (uptimeProject text) = .ok text := by
  have hread : (uptimeProject text).read "skill.toml" = .ok (utf8 text.toList) := rfl
  rw [loadFile, Check.bind_eq_ok]
  refine ⟨_, hread, ?_⟩
  rw [fromUtf8_utf8]
  exact congrArg Except.ok String.ofList_toList

/-- A manifest that is read from the project is packed with the files. -/
theorem uptime_packs (hraw : readRaw (uptimeLibraries description package hash).formats text = .ok raw)
    (hnormalize : normalize raw = .ok (uptimeManifest description)) :
    Packs (uptimeLibraries description package hash) (uptimeProject text) (uptimeManifest description)
      uptimeFiles package := by
  have hparse : parse (uptimeLibraries description package hash).formats text =
      .ok (uptimeManifest description) := by
    rw [parse_of_readRaw hraw, hnormalize]
  have hnames : checkNames (uptimeManifest description) = .ok () :=
    if_neg (show ¬ ('/' ∈ "uptime".toList ∨ '/' ∈ "1.0.0".toList ∨ '\\' ∈ "1.0.0".toList) by decide)
  have hwrite : (uptimeLibraries description package hash).write
      (members (rendered (uptimeLibraries description package hash) (uptimeManifest description)
        uptimeFiles) uptimeFiles) = .ok package := if_pos rfl
  exact ⟨gather_iff.mpr ⟨text, uptime_loadFile, hparse, hnames, uptime_contents⟩, hwrite, rfl, rfl, rfl⟩

end

theorem length_utf8_toList (text : String) : (utf8 text.toList).length = text.utf8ByteSize := by
  rw [← String.size_toByteArray, ← String.utf8Encode_toList, List.utf8Encode, List.size_toByteArray]
  rfl

/-- A project whose manifest is as `pack` writes it. -/
theorem pack_roundtrip_iff_uptime :
    RoundTrips (uptimeLibraries none uptimePackage uptimePackageHash)
      ((uptimeProject uptimeText).afterPack (uptimeLibraries none uptimePackage uptimePackageHash)
        (uptimeManifest none) uptimeFiles uptimePackage)
      (uptimeManifest none) uptimeFiles uptimePackage ↔ (rawOf (uptimeManifest none)).Plain := by
  have hlaws : (uptimeLibraries none uptimePackage uptimePackageHash).Laws :=
    uptimeLibraries_laws (by decide)
  have hraw : readRaw (uptimeLibraries none uptimePackage uptimePackageHash).formats uptimeText =
      .ok (rawOf (uptimeManifest none)) := by
    have hknown := contents_known (@uptime_contents none uptimePackage uptimePackageHash uptimeText)
    have hgood := hashes_good hlaws hknown
    exact readRaw_render hlaws.toml ⟨by decide, by decide, nofun⟩ fun file hmem =>
      ⟨(hgood file hmem).1, (hgood file hmem).2.1⟩
  have hpacks := uptime_packs hraw (by decide +kernel)
  have htext : uptimeText.utf8ByteSize ≤ 1000 := by decide +kernel
  have hfits : Fits uptimeText uptimeFiles uptimePackage := by
    refine ⟨by decide +kernel, fun data hdata => ?_, ?_⟩
    · cases hdata
      decide
    · rw [length_utf8_toList]
      exact Nat.le_trans (Nat.add_le_add_right htext _) (by decide)
  exact pack_roundtrip_iff hlaws (pack_iff.mpr ⟨_, _, _, hpacks, rfl, rfl⟩) hpacks.gathered
    uptime_loadFile hraw afterPack_package hfits (by decide)

/-- A description of two lines that end as in other systems. -/
def reportsDescription : String := "Checks uptime.\x0d\nReports load."

def reportsPackageHash : String := "3939fd76a43eafd50d65228fcdb22904aa1053086f08c199e56a827e58c94184"

def reportsPackage : Bytes :=
  [31, 139, 8, 0, 0, 0, 0, 0, 0, 255, 237, 151, 81, 139, 156, 48, 16, 128, 183, 175, 129, 251, 15,
   146, 31, 224, 38, 26, 163, 30, 28, 20, 250, 15, 250, 186, 187, 28, 99, 76, 184, 116, 19, 35, 70,
   175, 133, 210, 255, 222, 168, 109, 247, 216, 163, 220, 75, 93, 15, 234, 247, 146, 100, 102, 156,
   25, 153, 100, 52, 214, 213, 131, 145, 241, 87, 240, 118, 183, 20, 36, 192, 25, 155, 198, 192,
   245, 72, 8, 125, 49, 31, 229, 148, 144, 44, 217, 69, 100, 177, 140, 94, 48, 248, 30, 186, 40,
   186, 69, 168, 119, 73, 40, 252, 221, 238, 195, 218, 89, 108, 172, 132, 23, 79, 210, 194, 178,
   49, 198, 67, 157, 103, 217, 223, 207, 255, 171, 121, 78, 56, 223, 69, 217, 178, 105, 205, 252,
   231, 231, 127, 174, 255, 190, 133, 14, 172, 143, 191, 120, 215, 252, 251, 24, 111, 246, 127,
   146, 92, 245, 127, 154, 210, 116, 235, 255, 183, 224, 251, 143, 181, 51, 216, 88, 19, 127, 214,
   198, 196, 189, 179, 102, 185, 24, 111, 157, 255, 156, 209, 235, 254, 159, 39, 219, 255, 223, 77,
   152, 251, 255, 227, 179, 236, 188, 118, 77, 244, 16, 81, 212, 128, 149, 97, 130, 135, 182, 215,
   86, 98, 116, 209, 97, 26, 147, 152, 96, 84, 75, 47, 58, 29, 212, 179, 244, 211, 147, 20, 103,
   31, 205, 246, 241, 221, 177, 249, 44, 91, 215, 245, 62, 50, 14, 234, 24, 163, 214, 64, 175, 92,
   103, 125, 48, 62, 96, 163, 155, 225, 219, 30, 108, 205, 25, 62, 33, 116, 232, 134, 102, 124,
   238, 132, 206, 186, 169, 71, 119, 227, 93, 4, 35, 168, 244, 184, 104, 220, 115, 229, 250, 251,
   105, 155, 126, 164, 248, 98, 31, 27, 109, 117, 239, 79, 104, 92, 184, 161, 127, 156, 220, 103,
   97, 255, 4, 27, 165, 141, 12, 42, 108, 47, 183, 27, 60, 122, 75, 152, 4, 149, 178, 180, 4, 78,
   68, 201, 115, 206, 4, 83, 137, 40, 19, 32, 80, 208, 42, 75, 170, 154, 41, 153, 213, 89, 85, 82,
   69, 74, 66, 11, 6, 68, 113, 86, 240, 138, 86, 42, 41, 49, 194, 175, 63, 152, 147, 103, 198, 104,
   202, 21, 164, 89, 86, 165, 60, 47, 128, 82, 198, 161, 166, 92, 229, 178, 224, 172, 148, 37, 83,
   21, 83, 34, 161, 74, 230, 65, 148, 82, 34, 8, 15, 174, 169, 0, 80, 170, 128, 241, 205, 14, 2,
   218, 240, 218, 70, 247, 58, 100, 127, 250, 83, 8, 229, 227, 78, 66, 141, 145, 23, 174, 157, 36,
   251, 182, 115, 98, 255, 187, 64, 65, 233, 231, 74, 140, 102, 62, 58, 254, 42, 221, 17, 7, 175,
   107, 111, 176, 141, 141, 141, 119, 203, 79, 251, 101, 121, 85, 0, 18, 0, 0]

/-- The carriage return is escaped, as it must be. -/
def reportsText : String := String.join [
  "schema_version = 1\n", "name = \"uptime\"\n", "version = \"1.0.0\"\n",
  "description = \"Checks uptime.\\r\\nReports load.\"\n", "platforms = [\"linux/amd64\"]\n",
  "[runtime]\n", "kind = \"wasm\"\n", "abi = \"novbot:skill@1\"\n",
  "[runtime.limits]\n", "timeout_ms = 5000\n",
  "[[capabilities]]\n", "name = \"fs.read\"\n", "scope = \"/proc/uptime\"\n",
  "reason = \"reads \\\"uptime\\\"\"\n"]

def reportsDocument : Toml :=
  .table [("schema_version", .int 1), ("name", .str "uptime"), ("version", .str "1.0.0"),
    ("description", .str reportsDescription), ("platforms", .arr [.str "linux/amd64"]),
    ("runtime", .table [("kind", .str "wasm"), ("abi", .str "novbot:skill@1"),
      ("limits", .table [("timeout_ms", .int 5000)])]),
    ("capabilities", .arr [.table [("name", .str "fs.read"), ("scope", .str "/proc/uptime"),
      ("reason", .str "reads \"uptime\"")]])]

set_option maxRecDepth 10000 in
theorem readDocument_reports : readDocument reportsText = some reportsDocument := by
  unfold readDocument reportsText
  rw [String.toList_join]
  rfl

theorem decode_reports : RawManifest.decode reportsDocument =
    .ok (rawOf (uptimeManifest (some reportsDescription))) := by
  rfl

theorem readRaw_reports {package : Bytes} {hash : String} :
    readRaw (uptimeLibraries (some reportsDescription) package hash).formats reportsText =
      .ok (rawOf (uptimeManifest (some reportsDescription))) := by
  have hreader : (uptimeLibraries (some reportsDescription) package hash).formats.toml = plainReader := rfl
  unfold readRaw
  rw [hreader, plainReader_conforms.plain _ _ readDocument_reports]
  exact Check.mapError_eq_ok.mpr decode_reports

def reportsAfter : Project :=
  (uptimeProject reportsText).afterPack
    (uptimeLibraries (some reportsDescription) reportsPackage reportsPackageHash)
    (uptimeManifest (some reportsDescription)) uptimeFiles reportsPackage

/-- A carriage return in a description is packed, and the author's manifest is no document then. -/
theorem carriage_return_lost :
    (∃ packed, pack (uptimeLibraries (some reportsDescription) reportsPackage reportsPackageHash)
      (uptimeProject reportsText) = (.ok packed, reportsAfter)) ∧
    ¬ RoundTrips (uptimeLibraries (some reportsDescription) reportsPackage reportsPackageHash)
      reportsAfter (uptimeManifest (some reportsDescription)) uptimeFiles reportsPackage := by
  have hlaws : (uptimeLibraries (some reportsDescription) reportsPackage reportsPackageHash).Laws :=
    uptimeLibraries_laws (by decide)
  have hpacks := @uptime_packs _ reportsPackage reportsPackageHash _ _ readRaw_reports (by decide +kernel)
  refine ⟨⟨_, pack_iff.mpr ⟨_, _, _, hpacks, rfl, rfl⟩⟩, fun h => ?_⟩
  obtain ⟨text, htext, hparse⟩ := h.parses
  have hwritten : loadFile reportsAfter = .ok (rendered _ _ _) := afterPack_loadFile
  rw [hwritten] at htext
  cases htext
  have hstray : StrayControl (rendered (uptimeLibraries (some reportsDescription) reportsPackage
      reportsPackageHash) (uptimeManifest (some reportsDescription)) uptimeFiles).toList := by
    have hdescription : reportsDescription ∈ (uptimeManifest (some reportsDescription)).texts := by
      decide
    exact strayControl_within (by decide +kernel) (infix_render hdescription)
  obtain ⟨err, herr⟩ := hlaws.toml.control _ hstray
  rw [parse, readRaw, herr] at hparse
  cases hparse

end Novbot.Pack
