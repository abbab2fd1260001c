import Novbot.Pack.Normal
import Novbot.Pack.Project
import Novbot.Package.Agree

/-!
# Packed projects on the node

What `pack` writes is opened by the node, and read and packed again by itself.
-/

namespace Novbot.Pack

open Novbot.Package Text Toml
open Skills (normalizeRelPath loadPackage parseManifest catalog)

/-! ## The manifest on the node -/

/-- Paths that are their own normal forms are declared as they are. -/
theorem declaredFiles_self {ε : Type} {normalize : String → Except ε String} {duplicate : String → ε}
    {files : SortedMap String String} (h : ∀ file ∈ files.entries, normalize file.1 = .ok file.1) :
    declaredFiles normalize duplicate files = .ok files := by
  have hloop : ∀ (bindings : List (String × String)) (start : SortedMap String String),
      (∀ file ∈ bindings, normalize file.1 = .ok file.1) → (bindings.map (·.1)).Nodup →
      (∀ file ∈ bindings, start.contains file.1 = false) →
      bindings.foldlM (fun declared file => do
        let normalized ← normalize file.1
        if declared.contains normalized then throw (duplicate file.1)
        return declared.insert normalized file.2) start =
      .ok (bindings.foldl (fun m b => m.insert b.1 b.2) start) := by
    intro bindings
    induction bindings with
    | nil => exact fun _ _ _ _ => rfl
    | cons file bindings ih =>
      intro start hnormal hnodup hnew
      obtain ⟨hfile, hrest⟩ := List.nodup_cons.mp hnodup
      rw [List.foldlM_cons, List.foldl_cons]
      simp only [Check.bind_eq_ok, Check.throw_bind, Check.ite_throw_eq_ok, Check.pure_eq_ok]
      refine ⟨_, ⟨_, hnormal file List.mem_cons_self, ?_, rfl⟩, ?_⟩
      · rw [hnew file List.mem_cons_self]
        exact Bool.false_ne_true
      · simp only [Check.throw_bind] at ih
        refine ih _ (fun file hmem => hnormal file (.tail _ hmem)) hrest fun later hmem => ?_
        have hne : later.1 ≠ file.1 := fun heq =>
          hfile (List.mem_map.mpr ⟨later, hmem, heq⟩)
        rw [SortedMap.contains, SortedMap.lookup_insert, if_neg hne]
        exact hnew later (.tail _ hmem)
  have hread := hloop files.entries .empty h files.nodup_keys fun _ _ => rfl
  rw [declaredFiles, hread]
  exact congrArg Except.ok (SortedMap.ofList_entries files)

theorem blank_eq_false {text : String} (h : trimmed text = text) (hne : text ≠ "") :
    Skills.blank text = false := by
  have hlist := congrArg String.toList h
  rw [trimmed, String.toList_ofList] at hlist
  rw [Skills.blank, hlist, List.isEmpty_eq_false_iff]
  exact toList_ne hne

theorem grantString_raw {cap : Capability} (h : cap.Sound) :
    Skills.grantString ⟨some cap.name, cap.scope, none⟩ = .ok cap.grant := by
  obtain ⟨name, scope, reason⟩ := cap
  have hname : (some name).filter (· ≠ "") = some name := by
    rw [Option.filter_some, if_pos (decide_eq_true h.name)]
  have hscope : scope.filter (· ≠ "") = scope := by
    cases scope with
    | none => rfl
    | some scope =>
      have hne : scope ≠ "" := fun hempty => h.scope (congrArg some hempty)
      rw [Option.filter_some, if_pos (decide_eq_true hne)]
  rw [Skills.grantString]
  simp only [hname, hscope, Option.filter_none]
  cases scope <;> rfl

section
variable {formats : Formats} {manifest : Manifest} {files : SortedMap String String}

/-- The manifest as the node reads it. -/
def installed (manifest : Manifest) (files : SortedMap String String) : Skills.Manifest where
  name := manifest.name
  version := manifest.version
  abi := abi
  platforms := manifest.platforms
  timeoutMs := manifest.timeoutMs
  memoryMb := manifest.memoryMb
  files := files
  grants := manifest.grants

theorem parseManifest_render (conforms : Conforms formats.toml) (hprint : manifest.Printable)
    (hnormal : manifest.Normal)
    (hfiles : ∀ file ∈ files.entries, Printable file.1 ∧ Printable file.2 ∧
      normalizeRelPath (utf8 file.1.toList) = .ok file.1) :
    parseManifest formats (render manifest files) = .ok (installed manifest files) := by
  have hdoc := toml_render conforms hprint fun file hmem =>
    ⟨(hfiles file hmem).1, (hfiles file hmem).2.1⟩
  have hgrants : (manifest.capabilities.map fun cap =>
      (⟨some cap.name, cap.scope, none⟩ : Skills.CapabilityToml)).mapM Skills.grantString =
        .ok manifest.grants := by
    rw [Check.mapM_eq_ok, Manifest.grants, List.forall₂_map_left_iff, List.forall₂_map_right_iff,
      List.forall₂_same]
    exact fun cap hcap => grantString_raw (hnormal.capabilities cap hcap)
  have hname := blank_eq_false hnormal.name.1 hnormal.name.2
  have hversion := blank_eq_false hnormal.version.1 hnormal.version.2
  simp only [parseManifest, Check.throw_bind, Check.ite_throw_eq_ok, Check.bind_eq_ok,
    Check.mapError_eq_ok, Check.pure_eq_ok]
  have hdecode := decode_manifestToml manifest files
  have hread : (formats.toml (render manifest files)).bind Skills.ManifestToml.decode =
      Skills.ManifestToml.decode (documentOf manifest files) := by rw [hdoc]; rfl
  refine ⟨_, hread.trans hdecode, fun h => h rfl, fun h => h rfl, ?_, files, declaredFiles_self fun file hmem =>
    (hfiles file hmem).2.2, _, hgrants, rfl⟩
  · rw [hname, hversion]
    exact Bool.false_ne_true

/-! ## The manifest again -/

theorem readRaw_render (conforms : Conforms formats.toml) (hprint : manifest.Printable)
    (hfiles : ∀ file ∈ files.entries, Printable file.1 ∧ Printable file.2) :
    readRaw formats (render manifest files) = .ok (rawOf manifest) := by
  rw [readRaw, toml_render conforms hprint hfiles]
  exact congrArg _ (decode_raw manifest files hprint)

end

/-! ## The archive on the node -/

/-- An entry as it was handed to the writer.  A directory may have a slash at its end. -/
structure ReadsBack (member : Member) (entry : Entry) : Prop where
  kind : entry.kind = member.header.kind
  path : entry.path = .ok (utf8 member.path.toList) ∨
    member.header.kind = .directory ∧ entry.path = .ok (utf8 member.path.toList ++ [0x2F])
  size : entry.size = .ok member.header.size
  data : entry.data = .ok member.data

/-- What the libraries guarantee. -/
structure Libraries.Laws (libraries : Libraries) : Prop where
  toml : Conforms libraries.formats.toml
  archive : ∀ members bytes, libraries.write members = .ok bytes →
    (∀ member ∈ members, normalizeRelPath (utf8 member.path.toList) = .ok member.path ∧
      member.header.size = member.data.length) →
    ∃ entries, libraries.formats.archive bytes = .ok (entries.map .ok) ∧
      List.Forall₂ ReadsBack members entries
  sha256 : ∀ bytes, isLowerHex64 (libraries.formats.sha256 bytes) = true

/-- The node unpacks the member. -/
inductive Unpacks : Member → Prop
  | schema : Unpacks (appendDir "schema")
  | file {path : String} {data : Bytes} : normalizeRelPath (utf8 path.toList) = .ok path →
      Skills.endsWithCwasm path = false → (path = "module.wasm" → data.length ≤ wasmMax) →
      Unpacks (appendFile path data)

/-- The files among the members. -/
def bindings (members : List Member) : List (String × Bytes) :=
  members.filterMap fun member =>
    if member.header.kind = .regular then some (member.path, member.data) else none

theorem bindings_cons_dir (path : String) (members : List Member) :
    bindings (appendDir path :: members) = bindings members := rfl

theorem bindings_cons_file (path : String) (data : Bytes) (members : List Member) :
    bindings (appendFile path data :: members) = (path, data) :: bindings members := rfl

def totalSize (files : List (String × Bytes)) : Nat := (files.map (·.2.length)).sum

theorem normalizeRelPath_schema : normalizeRelPath (utf8 "schema".toList) = .ok "schema" ∧
    normalizeRelPath (utf8 "schema".toList ++ [0x2F]) = .ok "schema" := by decide +kernel

theorem unpackEntries_members {members : List Member} {entries : List Entry}
    (h : List.Forall₂ ReadsBack members entries) (hgood : ∀ member ∈ members, Unpacks member)
    (hnodup : ((bindings members).map (·.1)).Nodup) {count total : Nat} {start : SortedMap String Bytes}
    (hnew : ∀ file ∈ bindings members, start.contains file.1 = false)
    (hcount : count + members.length ≤ entryMax)
    (htotal : total + totalSize (bindings members) ≤ extractMax) :
    unpackEntries Skills.unpackRules (entries.map .ok) count total start =
      .ok ((bindings members).foldl (fun m b => m.insert b.1 b.2) start) := by
  induction h generalizing count total start with
  | nil => rfl
  | @cons member entry members entries hentry hrest ih =>
    have hgood' : ∀ member ∈ members, Unpacks member := fun member hmem => hgood member (.tail _ hmem)
    rw [List.length_cons] at hcount
    rw [List.map_cons]
    unfold unpackEntries
    simp only [Check.throw_bind, Check.ite_throw_eq_ok, Check.bind_eq_ok, Check.mapError_eq_ok]
    cases hgood member List.mem_cons_self with
    | schema =>
      rw [bindings_cons_dir] at hnodup hnew htotal ⊢
      have hkind : Skills.unpackRules.isDirectory entry.kind = .ok true := by
        rw [hentry.kind]
        rfl
      have hpath : ∃ raw, entry.path = .ok raw ∧ normalizeRelPath raw = .ok "schema" := by
        rcases hentry.path with hpath | ⟨-, hpath⟩
        · exact ⟨_, hpath, normalizeRelPath_schema.1⟩
        · exact ⟨_, hpath, normalizeRelPath_schema.2⟩
      obtain ⟨raw, hraw, hnormal⟩ := hpath
      refine ⟨entry, rfl, by omega, true, hkind, raw, hraw, _, hnormal, ?_⟩
      simp only [if_true, Check.bind_eq_ok]
      exact ⟨(), rfl, ih hgood' hnodup hnew (by omega) htotal⟩
    | @file path data hnormal hcwasm hwasm =>
      rw [bindings_cons_file, List.map_cons, List.nodup_cons] at hnodup
      rw [bindings_cons_file] at hnew htotal ⊢
      have hkind : Skills.unpackRules.isDirectory entry.kind = .ok false := by
        rw [hentry.kind]
        rfl
      have hpath : entry.path = .ok (utf8 path.toList) :=
        hentry.path.resolve_right fun hdir => by cases hdir.1
      have hfile : Skills.unpackRules.checkFile path = .ok () := by
        show (if Skills.endsWithCwasm path = true then _ else _) = _
        rw [hcwasm]
        rfl
      have hsum : totalSize ((path, data) :: bindings members) =
          data.length + totalSize (bindings members) := rfl
      rw [hsum] at htotal
      have hnew' : ∀ file ∈ bindings members, (start.insert path data).contains file.1 = false := by
        intro file hmem
        have hne : file.1 ≠ path := fun heq => hnodup.1 (List.mem_map.mpr ⟨file, hmem, heq⟩)
        rw [SortedMap.contains, SortedMap.lookup_insert, if_neg hne]
        exact hnew file (.tail _ hmem)
      have hcount' : count + 1 + members.length ≤ entryMax := by omega
      have htotal' : total + data.length + totalSize (bindings members) ≤ extractMax := by omega
      have hread := ih hgood' hnodup.2 hnew' hcount' htotal'
      have hfresh := hnew (path, data) List.mem_cons_self
      refine ⟨entry, rfl, by omega, false, hkind, _, hpath, path, hnormal, ?_⟩
      simp only [Bool.false_eq_true, if_false, Check.ite_throw_eq_ok, Check.bind_eq_ok,
        Check.mapError_eq_ok]
      refine ⟨(), hfile, data.length, hentry.size, fun hlarge => ?_, by omega, data, hentry.data,
        fun hlarge => ?_, by omega, ?_, hread⟩
      · exact absurd (hwasm hlarge.1) (Nat.not_le.mpr hlarge.2)
      · exact absurd (hwasm hlarge.1) (Nat.not_le.mpr hlarge.2)
      · rw [hfresh]
        exact Bool.false_ne_true

/-! ## The files of a project -/

/-- The files of a package but the manifest. -/
def packedPaths : List String :=
  ["module.wasm", "schema/params.json", "schema/output.json", "README.md", "LICENSE"]

theorem packedPaths_good : ∀ path ∈ "skill.toml" :: packedPaths,
    normalizeRelPath (utf8 path.toList) = .ok path ∧ Skills.endsWithCwasm path = false ∧
      Printable path := by decide +kernel

section
variable {libraries : Libraries} {project : Project}

theorem addOptional_ok {files files' : SortedMap String Bytes} {path : String}
    (h : addOptional libraries project files path = .ok files') :
    files' = files ∨ ∃ data, files' = files.insert path data := by
  unfold addOptional at h
  split at h
  · cases h
    exact .inl rfl
  · split at h
    · cases h
    · rw [Check.bind_eq_ok] at h
      obtain ⟨data, -, h⟩ := h
      split_ifs at h
      · simp only [Check.bind_eq_ok] at h
        obtain ⟨-, -, h⟩ := h
        cases h
        exact .inr ⟨data, rfl⟩
      · cases h
        exact .inr ⟨data, rfl⟩
    · cases h
      exact .inl rfl

/-- The module is among the files, which stand at known paths. -/
def Known (files : SortedMap String Bytes) : Prop :=
  files.contains "module.wasm" = true ∧ ∀ path, files.contains path = true → path ∈ packedPaths

theorem Known.insert {files : SortedMap String Bytes} {path : String} (h : Known files)
    (hpath : path ∈ packedPaths) (data : Bytes) : Known (files.insert path data) := by
  constructor
  · rw [SortedMap.contains, SortedMap.lookup_insert]
    split_ifs
    · rfl
    · exact h.1
  · intro other hother
    rw [SortedMap.contains, SortedMap.lookup_insert] at hother
    split_ifs at hother with heq
    · rw [heq]
      exact hpath
    · exact h.2 other hother

theorem addOptional_known {files files' : SortedMap String Bytes} {path : String}
    (h : addOptional libraries project files path = .ok files') (hpath : path ∈ packedPaths)
    (hknown : Known files) : Known files' := by
  rcases addOptional_ok h with rfl | ⟨data, rfl⟩
  · exact hknown
  · exact hknown.insert hpath data

theorem contents_known {files : SortedMap String Bytes} (h : contents libraries project = .ok files) :
    Known files := by
  simp only [contents, Check.throw_bind, Check.ite_throw_eq_ok, Check.bind_eq_ok, List.foldlM_cons,
    List.foldlM_nil, Check.pure_eq_ok] at h
  obtain ⟨wasm, -, -, params, -, files₁, h₁, files₂, h₂, files₃, h₃, rfl⟩ := h
  have hstart : Known (SortedMap.ofList [("module.wasm", wasm), ("schema/params.json", params)]) := by
    refine ⟨?_, fun path hpath => ?_⟩
    · rw [← SortedMap.mem_keys, SortedMap.mem_keys_ofList]
      exact List.mem_cons_self
    rw [← SortedMap.mem_keys, SortedMap.mem_keys_ofList] at hpath
    simp only [List.map_cons, List.map_nil, List.mem_cons, List.not_mem_nil, or_false] at hpath
    rcases hpath with rfl | rfl <;> decide
  exact addOptional_known h₃ (by decide) (addOptional_known h₂ (by decide)
    (addOptional_known h₁ (by decide) hstart))

end

/-! ## Unpacking -/

theorem bindings_members (manifest : String) (files : SortedMap String Bytes) :
    (bindings (members manifest files)).Perm (("skill.toml", utf8 manifest.toList) :: files.entries) := by
  have hsorted := (List.perm_insertionSort (fun left right : Member => left.path ≤ right.path)
    (appendFile "skill.toml" (utf8 manifest.toList) ::
      ((if files.keys.any inSchema then [appendDir "schema"] else []) ++
        files.entries.map fun file => appendFile file.1 file.2))).filterMap fun member =>
          if member.header.kind = .regular then some (member.path, member.data) else none
  have hfiles : bindings (files.entries.map fun file => appendFile file.1 file.2) = files.entries := by
    rw [bindings, List.filterMap_map]
    exact List.filterMap_some
  have hplain : bindings (appendFile "skill.toml" (utf8 manifest.toList) ::
      ((if files.keys.any inSchema then [appendDir "schema"] else []) ++
        files.entries.map fun file => appendFile file.1 file.2)) =
          ("skill.toml", utf8 manifest.toList) :: files.entries := by
    rw [bindings_cons_file]
    split_ifs
    · rw [List.singleton_append, bindings_cons_dir, hfiles]
    · rw [List.nil_append, hfiles]
  rw [← hplain]
  exact hsorted

theorem mem_members {manifest : String} {files : SortedMap String Bytes} {member : Member}
    (h : member ∈ members manifest files) :
    member = appendFile "skill.toml" (utf8 manifest.toList) ∨ member = appendDir "schema" ∨
      ∃ file ∈ files.entries, member = appendFile file.1 file.2 := by
  have hmem := (List.perm_insertionSort _ _).mem_iff.mp h
  rcases List.mem_cons.mp hmem with rfl | hmem
  · exact .inl rfl
  · rcases List.mem_append.mp hmem with hmem | hmem
    · split_ifs at hmem
      · exact .inr (.inl (List.mem_singleton.mp hmem))
      · cases hmem
    · obtain ⟨file, hfile, rfl⟩ := List.mem_map.mp hmem
      exact .inr (.inr ⟨file, hfile, rfl⟩)

/-- The sizes that the node allows. -/
structure Fits (manifest : String) (files : SortedMap String Bytes) (bytes : Bytes) : Prop where
  package : bytes.length ≤ packageMax
  wasm : ∀ data, files.lookup "module.wasm" = some data → data.length ≤ wasmMax
  total : (utf8 manifest.toList).length + totalSize files.entries ≤ extractMax

section
variable {manifest : String} {files : SortedMap String Bytes}

theorem Known.lookup_manifest (h : Known files) : files.lookup "skill.toml" = none :=
  Option.not_isSome_iff_eq_none.mp fun hsome => absurd (h.2 _ hsome) (by decide)

theorem nodup_bindings (h : Known files) : ((bindings (members manifest files)).map (·.1)).Nodup := by
  rw [((bindings_members manifest files).map (·.1)).nodup_iff, List.map_cons, List.nodup_cons]
  have hmanifest : "skill.toml" ∉ packedPaths := by decide
  exact ⟨fun hmem => hmanifest (h.2 _ (SortedMap.mem_keys.mp hmem)), files.nodup_keys⟩

theorem length_members (h : Known files) : (members manifest files).length ≤ entryMax := by
  have hfew : files.keys.length ≤ packedPaths.length :=
    (List.subperm_of_subset files.nodup_keys fun path hmem =>
      h.2 path (SortedMap.mem_keys.mp hmem)).length_le
  have hdir : (if files.keys.any inSchema then [appendDir "schema"] else []).length ≤ 1 := by
    split_ifs
    · exact le_rfl
    · exact Nat.zero_le _
  have hmax : packedPaths.length + 2 ≤ entryMax := by decide
  rw [SortedMap.keys, List.length_map] at hfew
  rw [members, (List.perm_insertionSort _ _).length_eq, List.length_cons, List.length_append,
    List.length_map]
  omega

/-- The files among the members, as a map. -/
theorem ofList_bindings (h : Known files) :
    SortedMap.ofList (bindings (members manifest files)) =
      files.insert "skill.toml" (utf8 manifest.toList) := by
  refine SortedMap.ext_lookup fun path => Option.ext fun data => ?_
  have hagree : ∀ a ∈ bindings (members manifest files), ∀ b ∈ bindings (members manifest files),
      a.1 = b.1 → a.2 = b.2 := fun a ha b hb heq =>
    congrArg Prod.snd (List.inj_on_of_nodup_map (nodup_bindings h) ha hb heq)
  rw [SortedMap.lookup_ofList_iff hagree, (bindings_members manifest files).mem_iff, List.mem_cons,
    SortedMap.lookup_insert, ← SortedMap.lookup_eq_some_iff, Prod.mk.injEq]
  by_cases heq : path = "skill.toml"
  · rw [if_pos heq, heq, h.lookup_manifest, Option.some.injEq]
    simp [eq_comm]
  · rw [if_neg heq, or_iff_right fun h => heq h.1]

theorem Known.path (h : Known files) : ∀ file ∈ files.entries, file.1 ∈ packedPaths := fun file hmem =>
  h.2 file.1 (SortedMap.mem_keys.mp (List.mem_map_of_mem hmem))

theorem unpack_members {libraries : Libraries} (laws : libraries.Laws) {bytes : Bytes}
    (hknown : Known files) (hfits : Fits manifest files bytes)
    (hwrite : libraries.write (members manifest files) = .ok bytes) :
    Skills.unpack libraries.formats bytes = .ok (files.insert "skill.toml" (utf8 manifest.toList)) := by
  have hgood : ∀ member ∈ members manifest files, Unpacks member := by
    intro member hmem
    rcases mem_members hmem with rfl | rfl | ⟨file, hfile, rfl⟩
    · obtain ⟨hnormal, hcwasm, -⟩ := packedPaths_good "skill.toml" List.mem_cons_self
      exact .file hnormal hcwasm fun h => absurd h (by decide)
    · exact .schema
    · obtain ⟨hnormal, hcwasm, -⟩ := packedPaths_good file.1 (.tail _ (hknown.path file hfile))
      refine .file hnormal hcwasm fun hwasm => hfits.wasm _ ?_
      rw [← hwasm]
      exact SortedMap.lookup_eq_some_iff.mpr hfile
  have hlength := @length_members manifest files hknown
  have htotal : totalSize (bindings (members manifest files)) ≤ extractMax := by
    rw [totalSize, ((bindings_members manifest files).map (·.2.length)).sum_nat]
    exact hfits.total
  obtain ⟨entries, harchive, hentries⟩ := laws.archive _ _ hwrite fun member hmem => by
    rcases mem_members hmem with rfl | rfl | ⟨file, hfile, rfl⟩
    · exact ⟨(packedPaths_good _ List.mem_cons_self).1, rfl⟩
    · exact ⟨normalizeRelPath_schema.1, rfl⟩
    · exact ⟨(packedPaths_good _ (.tail _ (hknown.path file hfile))).1, rfl⟩
  have hread := @unpackEntries_members _ _ hentries hgood (nodup_bindings hknown) 0 0 .empty
    (fun _ _ => rfl) (by omega) (by omega)
  rw [Skills.unpack, unpackWith, harchive]
  exact hread.trans (congrArg Except.ok (ofList_bindings hknown))

end

/-! ## Loading -/

theorem grantName_grant {cap : Capability} (h : cap.Sound) : Skills.grantName cap.grant = cap.name := by
  obtain ⟨name, scope, reason⟩ := cap
  cases scope with
  | none =>
    rw [Skills.grantName, Capability.grant, splitOnce_none.mpr h.colon]
  | some scope =>
    rw [Skills.grantName, splitOnce_some.mpr ⟨toList_grant name scope reason, h.colon⟩]
    exact String.ofList_toList

section
variable {libraries : Libraries} {manifest : Manifest} {files : SortedMap String Bytes}

theorem printable_hex {hash : String} (h : isLowerHex64 hash = true) : Printable hash := by
  intro c hc hcontrol
  rw [isLowerHex64, Bool.and_eq_true] at h
  have hchar := List.all_eq_true.mp h.2 c hc
  have hbare : isBare c = true := by
    rw [Bool.or_eq_true, Bool.and_eq_true, decide_eq_true_eq, decide_eq_true_eq] at hchar
    rcases hchar with hdigit | ⟨hlo, hhi⟩
    · rw [isBare, hdigit, Bool.or_true]
      rfl
    · have hlower : isAsciiLowercase c = true := by
        rw [isAsciiLowercase, Bool.and_eq_true, decide_eq_true_eq, decide_eq_true_eq]
        exact ⟨hlo, hhi.trans (by decide)⟩
      rw [isBare, hlower]
      rfl
  rw [isBare_plain hbare] at hcontrol
  cases hcontrol

theorem hashes_good (laws : libraries.Laws) (hknown : Known files) :
    ∀ file ∈ (hashes libraries files).entries, Printable file.1 ∧ Printable file.2 ∧
      normalizeRelPath (utf8 file.1.toList) = .ok file.1 := by
  intro file hmem
  obtain ⟨source, hsource, rfl⟩ := List.mem_map.mp hmem
  obtain ⟨hnormal, -, hprint⟩ := packedPaths_good source.1 (.tail _ (hknown.path source hsource))
  exact ⟨hprint, printable_hex (laws.sha256 source.2), hnormal⟩

theorem verifyFileHashes_pack (laws : libraries.Laws) (hknown : Known files) (text : Bytes) :
    Skills.verifyFileHashes libraries.formats (files.insert "skill.toml" text)
      (hashes libraries files) = .ok () := by
  refine verifyHashes_ok.mpr ⟨fun binding hmem => ?_, ?_⟩
  · obtain ⟨file, hfile, rfl⟩ := List.mem_map.mp hmem
    have hne : file.1 ≠ "skill.toml" := fun heq => by
      have hpath := hknown.path file hfile
      rw [heq] at hpath
      exact absurd hpath (by decide)
    refine ⟨laws.sha256 file.2, file.2, ?_, rfl⟩
    rw [SortedMap.lookup_insert, if_neg hne]
    exact SortedMap.lookup_eq_some_iff.mpr hfile
  · rw [List.filter_eq_nil_iff]
    intro path hpath
    rw [SortedMap.mem_keys, SortedMap.contains, SortedMap.lookup_insert] at hpath
    split_ifs at hpath with heq
    · simp [heq]
    · have hdeclared : (hashes libraries files).contains path = true := by
        rw [SortedMap.contains, hashes, SortedMap.lookup_map]
        simpa using hpath
      simp [hdeclared]

/-- A package of a printable manifest is opened, with what was read from the project. -/
theorem loadPackage_pack (laws : libraries.Laws) (hprint : manifest.Printable)
    (hnormal : manifest.Normal) (hcatalog : ∀ cap ∈ manifest.capabilities, cap.name ∈ catalog)
    (hknown : Known files) {bytes : Bytes} (hfits : Fits (rendered libraries manifest files) files bytes)
    (hwrite : libraries.write (members (rendered libraries manifest files) files) = .ok bytes) :
    loadPackage libraries.formats bytes = .ok ⟨installed manifest (hashes libraries files),
      files.insert "skill.toml" (utf8 (rendered libraries manifest files).toList)⟩ := by
  have hunpack := unpack_members laws hknown hfits hwrite
  have hparse := parseManifest_render laws.toml hprint hnormal (hashes_good laws hknown)
  have hverify := @verifyFileHashes_pack _ files laws hknown
    (utf8 (rendered libraries manifest files).toList)
  have hmodule : (files.insert "skill.toml" (utf8 (rendered libraries manifest files).toList)).contains
      "module.wasm" = true := by
    rw [SortedMap.contains, SortedMap.lookup_insert, if_neg (by decide)]
    exact hknown.1
  have hgrants : (installed manifest (hashes libraries files)).grants.forM Skills.checkGrant = .ok () := by
    refine Check.forM_eq_ok.mpr fun grant hmem => ?_
    obtain ⟨cap, hcap, rfl⟩ := List.mem_map.mp hmem
    rw [Skills.checkGrant, grantName_grant (hnormal.capabilities cap hcap), if_pos (hcatalog cap hcap)]
  have htext : fromUtf8 (utf8 (rendered libraries manifest files).toList) =
      some (rendered libraries manifest files).toList := fromUtf8_utf8 _
  have hlookup : (files.insert "skill.toml" (utf8 (rendered libraries manifest files).toList)).lookup
      "skill.toml" = some (utf8 (rendered libraries manifest files).toList) := by
    rw [SortedMap.lookup_insert, if_pos rfl]
  unfold loadPackage Skills.loadPackageInner
  simp only [Check.throw_bind, Check.ite_throw_eq_ok, Check.bind_eq_ok]
  refine ⟨Nat.not_lt.mpr hfits.package, _, hunpack, ?_⟩
  rw [hlookup]
  dsimp only
  rw [htext]
  dsimp only
  rw [String.ofList_toList]
  simp only [Check.ite_throw_eq_ok, Check.bind_eq_ok, Check.pure_eq_ok]
  refine ⟨_, hparse, (), rfl, fun h => h rfl, (), hverify, ?_, (), hgrants, rfl⟩
  rw [hmodule]
  exact Bool.false_ne_true

end

end Novbot.Pack
