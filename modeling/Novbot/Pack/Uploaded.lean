import Novbot.Catalog.Package
import Novbot.Pack.Repacked

/-!
# Packed projects at the center

What `pack` writes is unpacked by the center to the same files as on the node, and the center finds
in the manifest what was rendered.  So whether an upload is accepted depends on the fields of the
manifest alone: `Uploadable` says on which, and `acceptUpload_pack` that it is so.
-/

namespace Novbot.Pack

open Novbot.Package Text Toml
open Catalog (CatalogError CapabilityView ParsedPackage)

/-! ## Unpacking again -/

/-- What becomes of an entry by the first rules, the second allow. -/
structure AllowsEntry {ε ε' : Type} (rules : UnpackRules ε) (rules' : UnpackRules ε') (entry : Entry) :
    Prop where
  kind : ∀ directory, rules.isDirectory entry.kind = .ok directory →
    rules'.isDirectory entry.kind = .ok directory
  directory : ∀ raw path, rules.isDirectory entry.kind = .ok true → entry.path = .ok raw →
    normalizeRel rules.fail raw = .ok path → rules'.checkDirectory path = .ok ()
  file : ∀ raw path, rules.isDirectory entry.kind = .ok false → entry.path = .ok raw →
    normalizeRel rules.fail raw = .ok path → rules'.checkFile path = .ok ()

section
variable {ε ε' : Type} {rules : UnpackRules ε} {rules' : UnpackRules ε'}

theorem unpackEntries_transfer {entries : List Entry}
    (h : ∀ entry ∈ entries, AllowsEntry rules rules' entry) {count total : Nat} {files out : SortedMap String Bytes}
    (hok : unpackEntries rules (entries.map .ok) count total files = .ok out) :
    unpackEntries rules' (entries.map .ok) count total files = .ok out := by
  induction entries generalizing count total files with
  | nil =>
    cases hok
    rfl
  | cons entry entries ih =>
    obtain ⟨hentry, hrest⟩ := List.forall_mem_cons.mp h
    rw [List.map_cons, unpackEntries] at hok ⊢
    simp only [Check.throw_bind, Check.ite_throw_eq_ok, Check.bind_eq_ok, Check.mapError_eq_ok] at hok ⊢
    obtain ⟨_, ⟨⟩, hcount, directory, hkind, raw, hraw, path, hpath, hok⟩ := hok
    refine ⟨entry, rfl, hcount, directory, hentry.kind directory hkind, raw, hraw, path,
      normalizeRel_congr.mp hpath, ?_⟩
    cases directory with
    | true =>
      simp only [if_true, Check.bind_eq_ok] at hok ⊢
      obtain ⟨_, -, hok⟩ := hok
      exact ⟨(), hentry.directory raw path hkind hraw hpath, ih hrest hok⟩
    | false =>
      simp only [Bool.false_eq_true, if_false, Check.ite_throw_eq_ok, Check.bind_eq_ok,
        Check.mapError_eq_ok] at hok ⊢
      obtain ⟨_, -, declared, hdeclared, hwasm, hmax, data, hdata, hlength, htotal, hnew, hok⟩ := hok
      exact ⟨(), hentry.file raw path hkind hraw hpath, declared, hdeclared, hwasm, hmax, data, hdata,
        hlength, htotal, hnew, ih hrest hok⟩

end

section
variable {libraries : Libraries} {manifest : Manifest} {files : SortedMap String Bytes} {bytes : Bytes}

theorem packedPaths_allowed : ∀ path ∈ "skill.toml" :: packedPaths,
    Catalog.isAllowedFile path = true := by decide

/-- What a path becomes does not depend on the words of the refusal. -/
theorem normalizeRel_unique {ε : Type} {fail : String → ε} {raw : Bytes} {path text : String}
    (h : Skills.normalizeRelPath raw = .ok path) (hread : normalizeRel fail raw = .ok text) :
    text = path := by
  have hsame : normalizeRel fail raw = .ok path := normalizeRel_congr.mp h
  exact Except.ok.inj (hread.symm.trans hsame)

/-- A file of a package is one that the center allows. -/
theorem allowsEntry_file {path : String} {data : Bytes} {entry : Entry}
    (h : ReadsBack (appendFile path data) entry) (hpath : path ∈ "skill.toml" :: packedPaths) :
    AllowsEntry Skills.unpackRules Catalog.unpackRules entry := by
  have hkind : entry.kind = .regular := h.kind
  have hraw : entry.path = .ok (utf8 path.toList) := h.path.resolve_right fun hdir => by cases hdir.1
  constructor
  · intro directory hdirectory
    rw [hkind] at hdirectory ⊢
    cases hdirectory
    rfl
  · intro raw text hdirectory
    rw [hkind] at hdirectory
    cases hdirectory
  · intro raw text _ hentry htext
    rw [hraw] at hentry
    cases hentry
    rw [normalizeRel_unique (packedPaths_good path hpath).1 htext]
    show (if (!Catalog.isAllowedFile path) = true then _ else _) = _
    rw [packedPaths_allowed path hpath]
    rfl

theorem allowsEntry_schema {entry : Entry} (h : ReadsBack (appendDir "schema") entry) :
    AllowsEntry Skills.unpackRules Catalog.unpackRules entry := by
  have hkind : entry.kind = .directory := h.kind
  constructor
  · intro directory hdirectory
    rw [hkind] at hdirectory ⊢
    cases hdirectory
    rfl
  · intro raw text _ hentry htext
    have hschema : text = "schema" := by
      rcases h.path with hpath | ⟨-, hpath⟩
      · rw [hpath] at hentry
        cases hentry
        exact normalizeRel_unique normalizeRelPath_schema.1 htext
      · rw [hpath] at hentry
        cases hentry
        exact normalizeRel_unique normalizeRelPath_schema.2 htext
    rw [hschema]
    rfl
  · intro raw text hdirectory
    rw [hkind] at hdirectory
    cases hdirectory

/-- The center finds the files that were packed. -/
theorem unpack_center (laws : libraries.Laws) (hknown : Known files) {text : String}
    (hfits : Fits text files bytes) (hwrite : libraries.write (members text files) = .ok bytes) :
    Catalog.unpack libraries.formats bytes = .ok (files.insert "skill.toml" (utf8 text.toList)) := by
  have hnode := unpack_members laws hknown hfits hwrite
  obtain ⟨entries, harchive, hentries⟩ := laws.archive _ _ hwrite fun member hmem => by
    rcases mem_members hmem with rfl | rfl | ⟨file, hfile, rfl⟩
    · exact ⟨(packedPaths_good _ List.mem_cons_self).1, rfl⟩
    · exact ⟨normalizeRelPath_schema.1, rfl⟩
    · exact ⟨(packedPaths_good _ (.tail _ (hknown.path file hfile))).1, rfl⟩
  have hallows : ∀ entry ∈ entries, AllowsEntry Skills.unpackRules Catalog.unpackRules entry := by
    intro entry hmem
    obtain ⟨member, hmember, hreads⟩ := Check.exists_of_mem_right hentries hmem
    rcases mem_members hmember with rfl | rfl | ⟨file, hfile, rfl⟩
    · exact allowsEntry_file hreads List.mem_cons_self
    · exact allowsEntry_schema hreads
    · exact allowsEntry_file hreads (.tail _ (hknown.path file hfile))
  rw [Skills.unpack, unpackWith, harchive] at hnode
  rw [Catalog.unpack, unpackWith, harchive]
  exact unpackEntries_transfer hallows hnode

/-! ## The manifest at the center -/

/-- A capability as the center decodes it. -/
def Capability.uploaded (cap : Capability) : Catalog.CapabilityToml := ⟨cap.name, cap.scope, cap.reason⟩

theorem decode_uploadedCapability (cap : Capability) :
    Catalog.CapabilityToml.decode (.table (capabilityMembers cap)) = .ok cap.uploaded := by
  simp only [Catalog.CapabilityToml.decode, Check.bind_eq_ok, Check.pure_eq_ok]
  exact ⟨_, rfl, cap.name, rfl, _, get_scope cap, _, get_reason cap, rfl⟩

theorem decode_uploadedRuntime (manifest : Manifest) :
    Catalog.RuntimeToml.decode (.table (runtimeMembers manifest)) = .ok ⟨"wasm", abi⟩ := by
  simp only [Catalog.RuntimeToml.decode, Check.bind_eq_ok, Check.pure_eq_ok]
  exact ⟨_, rfl, _, rfl, _, rfl, rfl⟩

theorem decode_uploaded (manifest : Manifest) (hashes : SortedMap String String) :
    Catalog.ManifestToml.decode (documentOf manifest hashes) =
      .ok ⟨1, manifest.name, manifest.version, manifest.displayName, manifest.description,
        manifest.publisher, manifest.platforms, manifest.minNodeVersion, ⟨"wasm", abi⟩, hashes,
        manifest.capabilities.map (·.uploaded)⟩ := by
  obtain ⟨hdisplay, hdescription, hpublisher, hmin⟩ := get_texts manifest hashes
  simp only [Catalog.ManifestToml.decode, Check.bind_eq_ok, Check.pure_eq_ok]
  exact ⟨_, fields_documentOf manifest hashes _, 1, rfl, _, rfl, _, rfl, _, hdisplay, _, hdescription,
    _, hpublisher, _, get_platforms manifest hashes, _, hmin, _,
    (get_runtime manifest hashes _).trans (decode_uploadedRuntime manifest), _,
    get_files manifest hashes, _, get_capabilities manifest hashes decode_uploadedCapability, rfl⟩

/-! ## The files of a project -/

/-- The module is one, and the schemas are JSON. -/
structure Valid (libraries : Libraries) (files : SortedMap String Bytes) : Prop where
  wasm : ∃ data, files.lookup "module.wasm" = some data ∧ wasmMagic.isPrefixOf data = true
  params : ∃ data, files.lookup "schema/params.json" = some data
  json : ∀ path data, files.lookup path = some data → isJson path = true →
    checkJson libraries path data = .ok ()

theorem Valid.insert {path : String} {data : Bytes} (h : Valid libraries files)
    (hpath : path ∉ ["module.wasm", "schema/params.json"])
    (hjson : isJson path = true → checkJson libraries path data = .ok ()) :
    Valid libraries (files.insert path data) := by
  have hlookup : ∀ other, other ∈ ["module.wasm", "schema/params.json"] →
      (files.insert path data).lookup other = files.lookup other := by
    intro other hother
    rw [SortedMap.lookup_insert, if_neg]
    rintro rfl
    exact hpath hother
  constructor
  · rw [hlookup _ List.mem_cons_self]
    exact h.wasm
  · rw [hlookup _ (.tail _ List.mem_cons_self)]
    exact h.params
  · intro other found hfound hother
    rw [SortedMap.lookup_insert] at hfound
    split_ifs at hfound with heq
    · cases hfound
      rw [heq] at hother ⊢
      exact hjson hother
    · exact h.json other found hfound hother

theorem Valid.addOptional {project : Project} {files' : SortedMap String Bytes} {path : String}
    (h : Valid libraries files) (hpath : path ∉ ["module.wasm", "schema/params.json"])
    (hadd : addOptional libraries project files path = .ok files') : Valid libraries files' := by
  rw [Pack.addOptional] at hadd
  split at hadd
  · cases hadd
    exact h
  · split at hadd
    · cases hadd
    · rw [Check.bind_eq_ok] at hadd
      obtain ⟨data, -, hadd⟩ := hadd
      split_ifs at hadd with hjson
      · simp only [Check.bind_eq_ok] at hadd
        obtain ⟨_, hcheck, hadd⟩ := hadd
        cases hadd
        exact h.insert hpath fun _ => hcheck
      · cases hadd
        exact h.insert hpath fun hpath => absurd hpath hjson
    · cases hadd
      exact h

theorem contents_valid {project : Project} (h : contents libraries project = .ok files) :
    Valid libraries files := by
  simp only [contents, Check.throw_bind, Check.ite_throw_eq_ok, Check.bind_eq_ok, List.foldlM_cons,
    List.foldlM_nil, Check.pure_eq_ok] at h
  obtain ⟨wasm, -, hmagic, params, hparams, files₁, h₁, files₂, h₂, files₃, h₃, rfl⟩ := h
  rw [Bool.not_eq_true', Bool.not_eq_false] at hmagic
  simp only [readJsonFile, Check.bind_eq_ok, Check.pure_eq_ok] at hparams
  obtain ⟨found, -, _, hjson, rfl⟩ := hparams
  have hstart : Valid libraries (SortedMap.ofList
      [("module.wasm", wasm), ("schema/params.json", found)]) := by
    have hlookup : ∀ path data, (SortedMap.ofList
        [("module.wasm", wasm), ("schema/params.json", found)]).lookup path = some data ↔
          (path, data) ∈ [("module.wasm", wasm), ("schema/params.json", found)] := by
      intro path data
      refine SortedMap.lookup_ofList_iff fun a ha b hb heq => ?_
      simp only [List.mem_cons, List.not_mem_nil, or_false] at ha hb
      rcases ha with rfl | rfl <;> rcases hb with rfl | rfl
      · rfl
      · exact absurd (show "module.wasm" = "schema/params.json" from heq) (by decide)
      · exact absurd (show "schema/params.json" = "module.wasm" from heq) (by decide)
      · rfl
    refine ⟨⟨wasm, (hlookup _ _).mpr List.mem_cons_self, hmagic⟩,
      ⟨found, (hlookup _ _).mpr (.tail _ List.mem_cons_self)⟩, fun path data hdata hpath => ?_⟩
    rcases List.mem_cons.mp ((hlookup _ _).mp hdata) with heq | hmem
    · cases heq
      exact absurd hpath (by decide)
    · cases List.mem_singleton.mp hmem
      exact hjson
  exact ((hstart.addOptional (by decide) h₁).addOptional (by decide) h₂).addOptional (by decide) h₃

theorem jsonText_ok {path : String} {data : Bytes} (h : checkJson libraries path data = .ok ()) :
    ∃ text, Catalog.jsonText libraries.formats path data = .ok text := by
  rw [checkJson] at h
  rw [Catalog.jsonText, Catalog.textOf]
  cases htext : fromUtf8 data with
  | none =>
    rw [htext] at h
    cases h
  | some text =>
    rw [htext, Option.bind_some] at h
    cases hparse : libraries.formats.json.parse (.ofList text) with
    | none =>
      rw [hparse] at h
      cases h
    | some value =>
      refine ⟨.ofList text, ?_⟩
      rw [Check.bind_eq_ok]
      exact ⟨_, rfl, by rw [hparse]; rfl⟩

theorem validateWasm_ok {data : Bytes} (h : wasmMagic.isPrefixOf data = true) :
    Catalog.validateWasm data = .ok () := by
  obtain ⟨rest, rfl⟩ := List.isPrefixOf_iff_prefix.mp h
  rfl

theorem verifyFiles_pack (laws : libraries.Laws) (hknown : Known files) (text : Bytes) :
    Catalog.verifyFiles libraries.formats (files.insert "skill.toml" text) (hashes libraries files) =
      .ok () :=
  verifyHashes_ok.mpr (verifyHashes_ok.mp (verifyFileHashes_pack laws hknown text))

theorem normalizeRelStr_self {path : String} (h : path ∈ "skill.toml" :: packedPaths) :
    Catalog.normalizeRelStr path = .ok path := by
  have hnul : ∀ path ∈ "skill.toml" :: packedPaths, path.toList.contains '\x00' = false := by decide
  rw [Catalog.normalizeRelStr, hnul path h, if_neg Bool.false_ne_true, Check.mapError_eq_ok]
  exact normalizeRel_congr.mp (packedPaths_good path h).1

/-! ## What the center asks of a manifest -/

structure Uploadable (formats : Formats) (manifest : Manifest) (version : Semver)
    (views : List CapabilityView) : Prop where
  reserved : manifest.name ∉ Catalog.reservedNames
  name : Catalog.validSkillName manifest.name.toList = true
  semver : formats.semver manifest.version = some version
  range : Catalog.checkVersion version = .ok ()
  capabilities : Catalog.validateCapabilities (manifest.capabilities.map (·.uploaded)) = .ok views
  texts : Catalog.checkTexts (manifest.displayName.getD manifest.name) manifest.publisher
    manifest.minNodeVersion manifest.platforms = .ok ()

/-- What the center keeps of the package. -/
structure Uploaded (libraries : Libraries) (manifest : Manifest) (files : SortedMap String Bytes)
    (bytes : Bytes) (version : Semver) (views : List CapabilityView) (parsed : ParsedPackage) : Prop where
  name : parsed.name = manifest.name
  version : parsed.version = version.text
  displayName : parsed.displayName = manifest.displayName.getD manifest.name
  description : parsed.description = manifest.description.getD ""
  publisher : parsed.publisher = manifest.publisher
  platforms : parsed.platforms = manifest.platforms
  minNodeVersion : parsed.minNodeVersion = manifest.minNodeVersion
  manifestToml : parsed.manifestToml = rendered libraries manifest files
  files : parsed.files = hashes libraries files
  capabilities : parsed.capabilities = views
  lintWarnings : parsed.lintWarnings = Catalog.collectLintWarnings views
  sha256 : parsed.sha256 = libraries.formats.sha256 bytes
  sizeBytes : parsed.sizeBytes = bytes.length

theorem checkManifest_iff {formats : Formats} {version : Semver} (hashes : SortedMap String String) :
    Catalog.checkManifest formats ⟨1, manifest.name, manifest.version, manifest.displayName,
      manifest.description, manifest.publisher, manifest.platforms, manifest.minNodeVersion,
      ⟨"wasm", abi⟩, hashes, manifest.capabilities.map (·.uploaded)⟩ = .ok version ↔
      manifest.name ∉ Catalog.reservedNames ∧ Catalog.validSkillName manifest.name.toList = true ∧
        formats.semver manifest.version = some version ∧ Catalog.checkVersion version = .ok () := by
  simp only [Catalog.checkManifest, Check.throw_bind, Check.ite_throw_eq_ok, Bool.not_eq_true',
    Bool.not_eq_false, ne_eq, not_true_eq_false, not_false_eq_true, true_and]
  refine and_congr_right fun _ => and_congr_right fun _ => ?_
  cases hsemver : formats.semver manifest.version with
  | none => simp
  | some found =>
    simp only [Check.bind_eq_ok, if_false, Check.pure_eq_ok, Option.some.injEq]
    constructor
    · rintro ⟨_, hrange, rfl⟩
      exact ⟨rfl, hrange⟩
    · rintro ⟨rfl, hrange⟩
      exact ⟨(), hrange, rfl⟩

/-- The center trims what `novbot-skill` has trimmed. -/
theorem trimmed_nonempty {value : Option String} (h : nonempty value = value) :
    Catalog.trimmed value = value := h

/-- What the center reads of the unpacked files before the manifest. -/
structure Readable (formats : Formats) (unpacked : SortedMap String Bytes) (text : String) (wasm : Bytes)
    (params : String) (output : Option String) : Prop where
  moduleFile : unpacked.lookup "module.wasm" = some wasm
  magic : Catalog.validateWasm wasm = .ok ()
  manifestFile : unpacked.lookup "skill.toml" = some (utf8 text.toList)
  manifestText : Catalog.textOf "skill.toml is not utf-8" (utf8 text.toList) = .ok text
  paramsText : Catalog.requireJsonText formats unpacked "schema/params.json" = .ok params
  outputText : Catalog.optionalJsonText formats unpacked "schema/output.json" = .ok output

theorem Valid.readable (h : Valid libraries files) (text : String) :
    ∃ wasm params output, Readable libraries.formats
      (files.insert "skill.toml" (utf8 text.toList)) text wasm params output := by
  obtain ⟨wasm, hwasm, hmagic⟩ := h.wasm
  obtain ⟨data, hdata⟩ := h.params
  have hlookup : ∀ path, path ≠ "skill.toml" →
      (files.insert "skill.toml" (utf8 text.toList)).lookup path = files.lookup path := by
    intro path hne
    rw [SortedMap.lookup_insert, if_neg hne]
  obtain ⟨params, hparams⟩ := jsonText_ok (h.json _ _ hdata (by decide))
  have houtput : ∃ output, Catalog.optionalJsonText libraries.formats
      (files.insert "skill.toml" (utf8 text.toList)) "schema/output.json" = .ok output := by
    rw [Catalog.optionalJsonText, hlookup _ (by decide)]
    cases hfound : files.lookup "schema/output.json" with
    | none => exact ⟨none, rfl⟩
    | some data =>
      obtain ⟨found, htext⟩ := jsonText_ok (h.json _ _ hfound (by decide))
      exact ⟨some found, by dsimp only; rw [htext]; rfl⟩
  obtain ⟨output, houtput⟩ := houtput
  refine ⟨wasm, params, output, ?_, validateWasm_ok hmagic, ?_, ?_, ?_, houtput⟩
  · rw [hlookup _ (by decide)]
    exact hwasm
  · rw [SortedMap.lookup_insert, if_pos rfl]
  · rw [Catalog.textOf, fromUtf8_utf8]
    exact congrArg Except.ok String.ofList_toList
  · rw [Catalog.requireJsonText, hlookup _ (by decide), hdata]
    exact hparams

/-- The center accepts what was packed if and only if it accepts the manifest's fields, and keeps
what the manifest says. -/
theorem acceptUpload_pack (laws : libraries.Laws) (hprint : manifest.Printable)
    (hnormal : manifest.Normal) (hknown : Known files) (hvalid : Valid libraries files)
    (hfits : Fits (rendered libraries manifest files) files bytes)
    (hwrite : libraries.write (members (rendered libraries manifest files) files) = .ok bytes) :
    (∀ version views, Uploadable libraries.formats manifest version views →
      ∃ parsed, Catalog.acceptUpload libraries.formats bytes = .ok parsed) ∧
      ∀ parsed, Catalog.acceptUpload libraries.formats bytes = .ok parsed →
        ∃ version views, Uploadable libraries.formats manifest version views ∧
          Uploaded libraries manifest files bytes version views parsed := by
  have hgood := hashes_good laws hknown
  obtain ⟨wasm, params, output, hreads⟩ := hvalid.readable (rendered libraries manifest files)
  have hdocument := toml_render laws.toml hprint fun file hmem =>
    ⟨(hgood file hmem).1, (hgood file hmem).2.1⟩
  have hdecode : ((libraries.formats.toml (rendered libraries manifest files)).bind
      Catalog.ManifestToml.decode).mapError
        (fun err => CatalogError.invalidManifest ("skill.toml: " ++ err)) =
        .ok ⟨1, manifest.name, manifest.version, manifest.displayName, manifest.description,
          manifest.publisher, manifest.platforms, manifest.minNodeVersion, ⟨"wasm", abi⟩,
          hashes libraries files, manifest.capabilities.map (·.uploaded)⟩ := by
    rw [Check.mapError_eq_ok, rendered, hdocument]
    exact decode_uploaded manifest (hashes libraries files)
  have hdeclared : declaredFiles Catalog.normalizeRelStr
      (fun path => Catalog.invalidArchive ("duplicate [files] entry: " ++ path))
      (hashes libraries files) = .ok (hashes libraries files) :=
    declaredFiles_self fun file hmem => by
      obtain ⟨source, hsource, rfl⟩ := List.mem_map.mp hmem
      exact normalizeRelStr_self (.tail _ (hknown.path source hsource))
  have hverify := verifyFiles_pack laws hknown (utf8 (rendered libraries manifest files).toList)
  rw [Catalog.acceptUpload, if_neg (Nat.not_lt.mpr hfits.package), Catalog.parsePackage,
    unpack_center laws hknown hfits hwrite]
  simp only [Check.bind_eq_ok, Check.pure_eq_ok, Except.ok.injEq, exists_eq_left', hreads.moduleFile,
    hreads.manifestFile, hreads.magic, hreads.manifestText, hreads.paramsText, hreads.outputText,
    hdecode, hdeclared, hverify, trimmed_nonempty hnormal.displayName,
    trimmed_nonempty hnormal.publisher, trimmed_nonempty hnormal.minNodeVersion]
  constructor
  · intro version views hup
    have hcheck := (checkManifest_iff (hashes libraries files)).mpr
      ⟨hup.reserved, hup.name, hup.semver, hup.range⟩
    exact ⟨_, (), trivial, version, hcheck, (), trivial, views, hup.capabilities, (), hup.texts, rfl⟩
  · rintro parsed ⟨_, -, version, hcheck, _, -, views, hviews, _, htexts, rfl⟩
    obtain ⟨hreserved, hname, hsemver, hrange⟩ :=
      (checkManifest_iff (hashes libraries files)).mp hcheck
    refine ⟨version, views, ⟨hreserved, hname, hsemver, hrange, hviews, htexts⟩, ?_⟩
    constructor <;> rfl

/-- The center accepts no manifest that it cannot read. -/
theorem toml_of_acceptUpload (laws : libraries.Laws) (hknown : Known files)
    (hvalid : Valid libraries files) (hfits : Fits (rendered libraries manifest files) files bytes)
    (hwrite : libraries.write (members (rendered libraries manifest files) files) = .ok bytes)
    {parsed : ParsedPackage} (h : Catalog.acceptUpload libraries.formats bytes = .ok parsed) :
    ∃ document, libraries.formats.toml (rendered libraries manifest files) = .ok document := by
  obtain ⟨wasm, params, output, hreads⟩ := hvalid.readable (rendered libraries manifest files)
  rw [Catalog.acceptUpload, if_neg (Nat.not_lt.mpr hfits.package), Catalog.parsePackage,
    unpack_center laws hknown hfits hwrite] at h
  simp only [Check.bind_eq_ok, Except.ok.injEq, exists_eq_left', hreads.moduleFile, hreads.manifestFile,
    hreads.magic, hreads.manifestText, hreads.paramsText, hreads.outputText, Check.mapError_eq_ok] at h
  obtain ⟨_, -, found, hfound, -⟩ := h
  cases hdocument : libraries.formats.toml (rendered libraries manifest files) with
  | error err =>
    rw [hdocument] at hfound
    cases hfound
  | ok document => exact ⟨document, rfl⟩

end

/-! ## Which packages the center accepts -/

section
variable {libraries : Libraries} {project after : Project} {packed : Packed} {manifest : Manifest}
  {files : SortedMap String Bytes} {bytes : Bytes}

end

end Novbot.Pack
