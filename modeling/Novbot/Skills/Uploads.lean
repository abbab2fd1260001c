import Novbot.Package.Agree
import Novbot.Catalog.Grants
import Novbot.Catalog.Package
import Novbot.Skills.Package
import Mathlib.Data.List.TakeWhile

/-!
# Uploads on the node

The center and the node read the same manifest with structs of their own.  Two
keys mean something to the node only: the numbers of `runtime.limits`, and the
`grant` of a capability, which takes the place of its name and scope.  The center
looks at neither.  Everything else that it accepts the node accepts as well.
-/

namespace Novbot.Skills

open Novbot.Package Text

/-! ## Keys of the node -/

/-- The value of a field of a struct. -/
def field (names : List String) (name : String) (value : Toml) : Option Toml :=
  match Toml.fields names value with
  | .ok get => get name
  | .error _ => none

def documentField (name : String) (doc : Toml) : Option Toml :=
  field ["schema_version", "name", "version", "platforms", "runtime", "files", "capabilities"] name doc

def limitsField (runtime : Toml) : Option Toml := field ["kind", "abi", "limits"] "limits" runtime

def isStruct : Toml → Bool
  | .table _ | .arr _ | .datetime _ => true
  | _ => false

def isNatural : Toml → Bool
  | .int (.ofNat _) => true
  | _ => false

/-- The limits of the runtime are not negative. -/
def readableLimits (limits : Toml) : Bool :=
  isStruct limits && ["timeout_ms", "memory_mb"].all fun name =>
    (field ["timeout_ms", "memory_mb"] name limits).all isNatural

def grantField (cap : Toml) : Option Toml := field ["name", "scope", "grant"] "grant" cap

/-- The `grant` of a capability is a text that is empty or is for a capability of
the node's catalog. -/
def readableGrant (cap : Toml) : Bool :=
  (grantField cap).all fun
    | .str grant => grant = "" || grantName grant ∈ catalog
    | _ => false

def textField (name : String) (cap : Toml) : Option String :=
  match field ["name", "scope", "grant"] name cap with
  | some (.str text) => some text
  | _ => none

/-- The name and the scope that a capability is displayed with. -/
def declaredPair (cap : Toml) : String × Option String :=
  ((textField "name" cap).getD "", textField "scope" cap)

/-- The name and the scope of a grant, cut at its first colon. -/
def grantPair (grant : String) : String × Option String :=
  match splitOnce ':' grant.toList with
  | some (name, scope) => (.ofList name, some (.ofList scope))
  | none => (grant, none)

/-- The name and the scope that the node grants: those of `grant`, if it is not empty. -/
def statedPair (cap : Toml) : String × Option String :=
  match grantField cap with
  | some (.str grant) => if grant = "" then declaredPair cap else grantPair grant
  | _ => declaredPair cap

def capabilityItems (doc : Toml) : List Toml :=
  match documentField "capabilities" doc with
  | some (.arr items) => items
  | _ => []

/-- The node can read the keys that the center does not look at. -/
def readable (doc : Toml) : Bool :=
  ((documentField "runtime" doc).bind limitsField).all readableLimits &&
    (capabilityItems doc).all readableGrant

/-- Each granted name and scope is displayed by some capability, and the other way. -/
def sameGrants (doc : Toml) : Bool :=
  (capabilityItems doc).all fun cap =>
    ((capabilityItems doc).map declaredPair).contains (statedPair cap) &&
      ((capabilityItems doc).map statedPair).contains (declaredPair cap)

variable {formats : Formats} {body : Bytes} {parsed : Catalog.ParsedPackage}

/-! ## Accepted uploads -/

/-- What the center has checked of a package that it accepts. -/
theorem acceptUpload_ok (h : Catalog.acceptUpload formats body = .ok parsed) :
    body.length ≤ packageMax ∧ ∃ files manifestBytes text manifest version,
      Catalog.unpack formats body = .ok files ∧ files.contains "module.wasm" = true ∧
      files.lookup "skill.toml" = some manifestBytes ∧ fromUtf8 manifestBytes = some text ∧
      parsed.manifestToml = .ofList text ∧
      (formats.toml parsed.manifestToml).bind Catalog.ManifestToml.decode = .ok manifest ∧
      Catalog.checkManifest formats manifest = .ok version ∧
      declaredFiles Catalog.normalizeRelStr (fun path => Catalog.invalidArchive
        ("duplicate [files] entry: " ++ path)) manifest.files = .ok parsed.files ∧
      Catalog.verifyFiles formats files parsed.files = .ok () ∧
      Catalog.validateCapabilities manifest.capabilities = .ok parsed.capabilities ∧
      parsed.name = manifest.name ∧ parsed.version = version.text ∧
      parsed.platforms = manifest.platforms := by
  unfold Catalog.acceptUpload at h
  split at h
  · cases h
  · next hsize =>
    refine ⟨not_lt.mp hsize, ?_⟩
    unfold Catalog.parsePackage at h
    rw [Check.bind_eq_ok] at h
    obtain ⟨files, hunpack, h⟩ := h
    split at h
    · next wasm hwasm =>
      rw [Check.bind_eq_ok] at h
      obtain ⟨_, -, h⟩ := h
      split at h
      · next manifestBytes hmanifest =>
        simp only [Check.bind_eq_ok, Check.mapError_eq_ok, Check.pure_eq_ok] at h
        obtain ⟨text, htext, params, -, output, -, manifest, hdecode, version, hcheck, declared,
          hdeclared, _, hverify, capabilities, hcaps, _, -, rfl⟩ := h
        unfold Catalog.textOf at htext
        split at htext
        · next chars hchars =>
          cases htext
          exact ⟨files, manifestBytes, chars, manifest, version, hunpack,
            by rw [SortedMap.contains, hwasm]; rfl, hmanifest, hchars, rfl, hdecode, hcheck,
            hdeclared, hverify, hcaps, rfl, rfl, rfl⟩
        · cases htext
      · cases h
    · cases h

theorem checkManifest_ok {manifest : Catalog.ManifestToml} {version : Semver}
    (h : Catalog.checkManifest formats manifest = .ok version) :
    manifest.schemaVersion = 1 ∧ Catalog.validSkillName manifest.name.toList = true ∧
      formats.semver manifest.version = some version ∧ manifest.runtime.kind = "wasm" ∧
      manifest.runtime.abi = abi := by
  unfold Catalog.checkManifest at h
  simp only [Check.throw_bind, Check.ite_throw_eq_ok] at h
  obtain ⟨hschema, -, hname, h⟩ := h
  split at h
  · cases h
  · next version' hversion =>
    simp only [Check.ite_throw_eq_ok, Check.bind_eq_ok, Check.pure_eq_ok] at h
    obtain ⟨_, -, hkind, habi, rfl⟩ := h
    exact ⟨not_not.mp hschema, by simpa using hname, hversion, not_not.mp hkind, not_not.mp habi⟩

/-! ## Files -/

theorem normalizeRelStr_ok {path text : String} (h : Catalog.normalizeRelStr path = .ok text) :
    normalizeRelPath (utf8 path.toList) = .ok text := by
  unfold Catalog.normalizeRelStr at h
  split at h
  · cases h
  · exact normalizeRel_congr.mp (Check.mapError_eq_ok.mp h)

/-- The node unpacks everything that the center does. -/
theorem unpackRules_allows : unpackRules.Allows Catalog.unpackRules where
  plain kind h := by
    rw [decide_eq_true_eq.mp h]
    rfl
  directory := rfl
  checkDirectory _ _ := rfl
  checkFile path h := by
    have hnames : ∀ path ∈ ["skill.toml", "module.wasm", "schema/params.json", "schema/output.json",
        "README.md", "LICENSE"], endsWithCwasm path = false := by decide
    have hallowed : Catalog.isAllowedFile path = true := by
      by_contra hbad
      simp [Catalog.unpackRules, hbad] at h
    show (if endsWithCwasm path = true then _ else _) = _
    rw [hnames path (decide_eq_true_eq.mp hallowed)]
    rfl

theorem verifyFiles_ok {files : SortedMap String Bytes} {declared : SortedMap String String}
    (h : Catalog.verifyFiles formats files declared = .ok ()) :
    verifyFileHashes formats files declared = .ok () :=
  verifyHashes_ok.mpr (verifyHashes_ok.mp h)

theorem not_isWhiteSpace_of_lowercase {c : Char} (h : isAsciiLowercase c = true) :
    isWhiteSpace c = false := by
  simp only [isAsciiLowercase, Bool.and_eq_true, decide_eq_true_eq, Char.le_def, UInt32.le_iff_toNat_le] at h
  rw [Bool.eq_false_iff]
  intro hspace
  simp [isWhiteSpace] at hspace h
  omega

theorem not_blank_of_validSkillName {name : String} (h : Catalog.validSkillName name.toList = true) :
    blank name = false := by
  unfold Catalog.validSkillName at h
  split at h
  · cases h
  · next first rest hname =>
    simp only [Bool.and_eq_true] at h
    have hvisible := not_isWhiteSpace_of_lowercase h.1.2
    have hstart : trimStart (first :: rest) = first :: rest := by
      rw [trimStart, List.dropWhile_cons_of_neg (by simp [hvisible])]
    rw [blank, hname, List.isEmpty_eq_false_iff, trim, hstart, trimEndMatches]
    intro hnil
    rw [List.reverse_eq_nil_iff, List.dropWhile_eq_nil_iff] at hnil
    have hspace := hnil first (List.mem_reverse.mpr List.mem_cons_self)
    rw [hvisible] at hspace
    cases hspace

/-! ## The document -/

theorem field_eq {names : List String} {name : String} {value : Toml} {get : String → Option Toml}
    (h : Toml.fields names value = .ok get) : field names name value = get name := by
  unfold field
  rw [h]

theorem optional_natural_ok {get : String → Option Toml} {name : String} :
    (∃ n, Toml.optional get name Toml.natural = .ok n) ↔ (get name).all isNatural = true := by
  unfold Toml.optional
  cases get name with
  | none => exact iff_of_true ⟨none, rfl⟩ rfl
  | some value =>
    cases value with
    | int n =>
      cases n with
      | ofNat n => exact iff_of_true ⟨some n, rfl⟩ rfl
      | negSucc n => exact iff_of_false (fun ⟨_, h⟩ => nomatch h) Bool.false_ne_true
    | _ => exact iff_of_false (fun ⟨_, h⟩ => nomatch h) Bool.false_ne_true

theorem limits_decode_ok {value : Toml} :
    (∃ limits, LimitsToml.decode value = .ok limits) ↔ readableLimits value = true := by
  unfold LimitsToml.decode readableLimits
  simp only [Check.bind_eq_ok, Check.pure_eq_ok, Bool.and_eq_true, List.all_eq_true,
    List.forall_mem_cons, List.not_mem_nil, false_imp_iff, implies_true, and_true]
  constructor
  · rintro ⟨limits, get, hget, timeout, htimeout, memory, hmemory, -⟩
    rw [field_eq hget, field_eq hget]
    refine ⟨?_, optional_natural_ok.mp ⟨timeout, htimeout⟩, optional_natural_ok.mp ⟨memory, hmemory⟩⟩
    cases value with
    | table members => rfl
    | arr items => rfl
    | datetime text => rfl
    | _ => cases hget
  · rintro ⟨hstruct, htimeout, hmemory⟩
    obtain ⟨get, hget⟩ : ∃ get, Toml.fields ["timeout_ms", "memory_mb"] value = .ok get := by
      cases value with
      | table members => exact ⟨_, rfl⟩
      | arr items => exact ⟨_, rfl⟩
      | datetime text => exact ⟨_, rfl⟩
      | _ => cases hstruct
    rw [field_eq hget] at htimeout hmemory
    obtain ⟨timeout, htimeout⟩ := optional_natural_ok.mpr htimeout
    obtain ⟨memory, hmemory⟩ := optional_natural_ok.mpr hmemory
    exact ⟨_, get, hget, timeout, htimeout, memory, hmemory, rfl⟩

/-! ## Capabilities -/

theorem grantPair_fst (grant : String) : (grantPair grant).1 = grantName grant := by
  unfold grantPair grantName
  cases splitOnce ':' grant.toList <;> rfl

theorem capSpec_mem_catalog {name : String} {spec : Catalog.CapSpec}
    (h : Catalog.capSpec name = some spec) : name ∈ catalog := by
  have htable : ∀ entry ∈ Catalog.capSpecs, entry.1 ∈ catalog := by decide
  obtain ⟨before, after, hcut, -⟩ := List.lookup_eq_some_iff.mp h
  refine htable (name, spec) ?_
  rw [hcut]
  simp

section

variable {cap : Catalog.CapabilityToml} {view : Catalog.CapabilityView}

/-- The grant of an accepted capability is cut into the name and the scope that are
displayed. -/
theorem grantPair_view (h : Catalog.validateCapability cap = .ok view) :
    grantPair view.grant = (view.name, view.scope) ∧ view.name = cap.name ∧ view.scope = cap.scope := by
  obtain ⟨hname, spec, scope, -, hscope, hgrant, hviewName, hviewScope⟩ :=
    Catalog.validateCapability_ok h
  obtain ⟨rfl, -⟩ := Catalog.checkScope_ok hscope
  have hcolon : ':' ∉ cap.name.toList := Catalog.not_mem_of_validCapName hname (by decide)
  refine ⟨?_, hviewName, hviewScope⟩
  rw [hgrant, hviewName, hviewScope, grantPair]
  cases hgiven : cap.scope with
  | none =>
    have hcut : splitOnce ':' cap.name.toList = none := splitOnce_none.mpr hcolon
    simp only [Catalog.grantString, hcut]
  | some text =>
    have hchars : (Catalog.grantString cap.name (some text)).toList =
        cap.name.toList ++ ':' :: text.toList := by simp [Catalog.grantString]
    have hcut : splitOnce ':' (cap.name.toList ++ ':' :: text.toList) =
        some (cap.name.toList, text.toList) := splitOnce_some.mpr ⟨rfl, hcolon⟩
    simp only [hchars, hcut, String.ofList_toList]

/-- An accepted capability has a name of the node's catalog, and no empty scope. -/
theorem accepted_parts (h : Catalog.validateCapability cap = .ok view) :
    cap.name ∈ catalog ∧ cap.scope ≠ some "" ∧
      view.grant = Catalog.grantString cap.name cap.scope := by
  obtain ⟨-, spec, scope, hspec, hscope, hgrant, -⟩ := Catalog.validateCapability_ok h
  obtain ⟨rfl, hfits⟩ := Catalog.checkScope_ok hscope
  refine ⟨capSpec_mem_catalog hspec, fun hempty => ?_, hgrant⟩
  rw [hempty] at hfits
  cases hkind : spec.kind with
  | bare =>
    rw [hkind] at hfits
    exact hfits
  | fsPath =>
    rw [hkind] at hfits
    exact absurd (show Catalog.validFsScope "".toList = true from hfits) (by decide)
  | env =>
    rw [hkind] at hfits
    exact absurd (show Catalog.validEnvScope "".toList = true from hfits) (by decide)

/-- The grant that the node takes from a capability whose name and scope make up
`grant`. -/
def statedGrant (value : Toml) (grant : String) : Option String :=
  match grantField value with
  | none => some grant
  | some (.str text) => some (if text = "" then grant else text)
  | some _ => none

theorem grantString_eq {own : CapabilityToml} (hname : own.name = some cap.name)
    (hscope : own.scope = cap.scope) (h : Catalog.validateCapability cap = .ok view) :
    grantString own = .ok ((own.grant.filter (· ≠ "")).getD view.grant) := by
  obtain ⟨hcatalog, hempty, hgrant⟩ := accepted_parts h
  have hne : cap.name ≠ "" := fun heq => absurd (heq ▸ hcatalog) (by decide)
  unfold grantString
  cases own.grant.filter (· ≠ "") with
  | some grant => rfl
  | none =>
    rw [hname, hscope, hgrant]
    cases hgiven : cap.scope with
    | none => simp [Option.filter, hne, Catalog.grantString]
    | some text =>
      have htext : text ≠ "" := fun heq => hempty (heq ▸ hgiven)
      simp [Option.filter, hne, htext, Catalog.grantString]

/-- The node finds the name and the scope that the center finds, and `grant`. -/
theorem capability_decode_ok {value : Toml} {own : CapabilityToml}
    (h : Catalog.CapabilityToml.decode value = .ok cap) :
    CapabilityToml.decode value = .ok own ↔ ∃ given,
      Toml.optional (fun _ => grantField value) "grant" Toml.string = .ok given ∧
      own = ⟨some cap.name, cap.scope, given⟩ := by
  unfold Catalog.CapabilityToml.decode at h
  simp only [Check.bind_eq_ok, Check.pure_eq_ok] at h
  obtain ⟨get, hget, name, hname, scope, hscope, reason, -, rfl⟩ := h
  obtain ⟨get', hget', hshared⟩ := @Toml.fields_append ["name", "scope"] ["reason"] ["grant"] _ _ hget
  have hgrantEq : Toml.optional (fun _ => grantField value) "grant" Toml.string =
      Toml.optional get' "grant" Toml.string := by
    have hfield : grantField value = get' "grant" := field_eq hget'
    unfold Toml.optional
    rw [hfield]
  have hnameEq : Toml.optional get' "name" Toml.string = .ok (some name) := by
    unfold Toml.required at hname
    unfold Toml.optional
    rw [hshared "name" (by simp)]
    cases hfound : get "name" with
    | none =>
      rw [hfound] at hname
      cases hname
    | some value' =>
      rw [hfound] at hname
      exact congrArg (Except.map some) hname
  have hscopeEq : Toml.optional get' "scope" Toml.string = .ok scope := by
    rw [← hscope]
    unfold Toml.optional
    rw [hshared "scope" (by simp)]
  rw [hgrantEq]
  unfold CapabilityToml.decode
  simp only [Check.bind_eq_ok, Check.pure_eq_ok]
  constructor
  · rintro ⟨found, hfound, name', hname', scope', hscope', given, hgiven, rfl⟩
    cases hget'.symm.trans hfound
    cases hnameEq.symm.trans hname'
    cases hscopeEq.symm.trans hscope'
    exact ⟨given, hgiven, rfl⟩
  · rintro ⟨given, hgiven, rfl⟩
    exact ⟨get', hget', _, hnameEq, _, hscopeEq, given, hgiven, rfl⟩

theorem node_grant_iff {value : Toml} {grant : String}
    (hdecode : Catalog.CapabilityToml.decode value = .ok cap)
    (hview : Catalog.validateCapability cap = .ok view) :
    (∃ own, CapabilityToml.decode value = .ok own ∧ grantString own = .ok grant) ↔
      statedGrant value view.grant = some grant := by
  have hgrants : (∃ own, CapabilityToml.decode value = .ok own ∧ grantString own = .ok grant) ↔
      ∃ given, Toml.optional (fun _ => grantField value) "grant" Toml.string = .ok given ∧
        (given.filter (· ≠ "")).getD view.grant = grant := by
    constructor
    · rintro ⟨own, hown, hgrant⟩
      obtain ⟨given, hgiven, rfl⟩ := (capability_decode_ok hdecode).mp hown
      rw [grantString_eq rfl rfl hview] at hgrant
      exact ⟨given, hgiven, Except.ok.inj hgrant⟩
    · rintro ⟨given, hgiven, rfl⟩
      exact ⟨_, (capability_decode_ok hdecode).mpr ⟨given, hgiven, rfl⟩,
        grantString_eq rfl rfl hview⟩
  rw [hgrants, statedGrant, Toml.optional]
  cases grantField value with
  | none => simp [Option.filter]
  | some value' =>
    cases value' with
    | str text => by_cases hempty : text = "" <;> simp [Toml.string, Except.map, Option.filter, hempty]
    | _ => simp [Toml.string, Except.map]

end

/-! ## The manifest -/

/-- A required field of another struct with the same first fields. -/
theorem required_congr {α : Type} {get get' : String → Option Toml} {name : String}
    {decode : Toml.Decoder α} (h : get' name = get name) :
    Toml.required get' name decode = Toml.required get name decode := by
  unfold Toml.required
  rw [h]

/-- The limits that the node takes from a field. -/
def readLimits : Option Toml → Except String LimitsToml
  | some value => LimitsToml.decode value
  | none => .ok ⟨none, none⟩

theorem readLimits_ok {value : Option Toml} :
    (∃ limits, readLimits value = .ok limits) ↔ value.all readableLimits = true := by
  cases value with
  | none => exact iff_of_true ⟨_, rfl⟩ rfl
  | some value => exact limits_decode_ok

theorem runtime_decode_ok {value : Toml} {runtime : Catalog.RuntimeToml} {own : RuntimeToml}
    (h : Catalog.RuntimeToml.decode value = .ok runtime) :
    RuntimeToml.decode value = .ok own ↔
      ∃ limits, readLimits (limitsField value) = .ok limits ∧ own = ⟨runtime.kind, runtime.abi, limits⟩ := by
  unfold Catalog.RuntimeToml.decode at h
  simp only [Check.bind_eq_ok, Check.pure_eq_ok] at h
  obtain ⟨get, hget, kind, hkind, abi, habi, rfl⟩ := h
  obtain ⟨get', hget', hshared⟩ := @Toml.fields_append ["kind", "abi"] [] ["limits"] _ _ hget
  have hlimits : readLimits (limitsField value) =
      Toml.orDefault get' "limits" LimitsToml.decode ⟨none, none⟩ := by
    have hfield : limitsField value = get' "limits" := field_eq hget'
    rw [hfield, Toml.orDefault]
    cases get' "limits" <;> rfl
  rw [← required_congr (hshared "kind" (by simp))] at hkind
  rw [← required_congr (hshared "abi" (by simp))] at habi
  rw [hlimits]
  unfold RuntimeToml.decode
  simp only [Check.bind_eq_ok, Check.pure_eq_ok]
  constructor
  · rintro ⟨found, hfound, kind', hkind', abi', habi', limits, hlimits, rfl⟩
    cases hget'.symm.trans hfound
    cases hkind.symm.trans hkind'
    cases habi.symm.trans habi'
    exact ⟨limits, hlimits, rfl⟩
  · rintro ⟨limits, hlimits, rfl⟩
    exact ⟨get', hget', kind, hkind, abi, habi, limits, hlimits, rfl⟩

/-- A list that may be absent. -/
theorem orDefault_list_ok {α : Type} {get : String → Option Toml} {name : String}
    {decode : Toml.Decoder α} {xs : List α}
    (h : Toml.orDefault get name (Toml.list decode) [] = .ok xs) :
    (get name = none ∧ xs = []) ∨ ∃ items, get name = some (.arr items) ∧ items.mapM decode = .ok xs := by
  unfold Toml.orDefault at h
  cases hfound : get name with
  | none =>
    rw [hfound] at h
    cases h
    exact .inl ⟨rfl, rfl⟩
  | some value =>
    rw [hfound] at h
    cases value with
    | arr items => exact .inr ⟨items, rfl, h⟩
    | _ => cases h

section

variable {members : List (String × Toml)} {manifest : Catalog.ManifestToml}

theorem capabilityItems_mapM {α β : Type} {decode : Toml.Decoder α} {decode' : Toml.Decoder β}
    {xs : List α} (h : Toml.orDefault (members.lookup ·) "capabilities" (Toml.list decode) [] = .ok xs) :
    (capabilityItems (.table members)).mapM decode = .ok xs ∧
      Toml.orDefault (members.lookup ·) "capabilities" (Toml.list decode') [] =
        (capabilityItems (.table members)).mapM decode' := by
  have hitems : capabilityItems (.table members) = match members.lookup "capabilities" with
    | some (.arr items) => items
    | _ => [] := rfl
  rcases orDefault_list_ok h with ⟨hnone, rfl⟩ | ⟨items, hsome, hmap⟩
  · rw [hitems, Toml.orDefault]
    simp only [hnone]
    exact ⟨rfl, rfl⟩
  · rw [hitems, Toml.orDefault]
    simp only [hsome]
    exact ⟨hmap, rfl⟩

/-- What the node finds in a document that the center has read. -/
theorem manifest_decode_ok {own : ManifestToml}
    (h : Catalog.ManifestToml.decode (.table members) = .ok manifest) :
    ManifestToml.decode (.table members) = .ok own ↔ ∃ limits capabilities,
      readLimits ((documentField "runtime" (.table members)).bind limitsField) = .ok limits ∧
      (capabilityItems (.table members)).mapM CapabilityToml.decode = .ok capabilities ∧
      own = ⟨manifest.schemaVersion, manifest.name, manifest.version, manifest.platforms,
        ⟨manifest.runtime.kind, manifest.runtime.abi, limits⟩, manifest.files, capabilities⟩ := by
  unfold Catalog.ManifestToml.decode at h
  simp only [Check.bind_eq_ok, Check.pure_eq_ok] at h
  obtain ⟨get, hget, schema, hschema, name, hname, version, hversion, display, -, description, -,
    publisher, -, platforms, hplatforms, minimum, -, runtime, hruntime, files, hfiles, capabilities,
    hcapabilities, rfl⟩ := h
  cases hget
  obtain ⟨value, hvalue, hdecode⟩ : ∃ value, members.lookup "runtime" = some value ∧
      Catalog.RuntimeToml.decode value = .ok runtime := by
    unfold Toml.required at hruntime
    split at hruntime
    · next value hfound => exact ⟨value, hfound, hruntime⟩
    · cases hruntime
  have hlimits : (documentField "runtime" (.table members)).bind limitsField = limitsField value :=
    congrArg (·.bind limitsField) hvalue
  have hown : Toml.required (members.lookup ·) "runtime" RuntimeToml.decode =
      RuntimeToml.decode value := by
    rw [Toml.required, hvalue]
  rw [hlimits]
  unfold ManifestToml.decode
  simp only [Check.bind_eq_ok, Check.pure_eq_ok]
  constructor
  · rintro ⟨found, hfound, schema', hschema', name', hname', version', hversion', platforms',
      hplatforms', runtime', hruntime', files', hfiles', capabilities', hcapabilities', rfl⟩
    cases hfound
    cases hschema.symm.trans hschema'
    cases hname.symm.trans hname'
    cases hversion.symm.trans hversion'
    cases hplatforms.symm.trans hplatforms'
    cases hfiles.symm.trans hfiles'
    obtain ⟨limits, hlimits, rfl⟩ := (runtime_decode_ok hdecode).mp (hown.symm.trans hruntime')
    exact ⟨limits, capabilities', hlimits,
      (capabilityItems_mapM hcapabilities).2.symm.trans hcapabilities', rfl⟩
  · rintro ⟨limits, capabilities', hlimits, hcapabilities', rfl⟩
    exact ⟨_, rfl, schema, hschema, name, hname, version, hversion, platforms, hplatforms,
      ⟨runtime.kind, runtime.abi, limits⟩,
      hown.trans ((runtime_decode_ok hdecode).mpr ⟨limits, hlimits, rfl⟩), files, hfiles,
      capabilities', (capabilityItems_mapM hcapabilities).2.trans hcapabilities', rfl⟩

end

/-! ## The package -/

/-- The node takes a list of grants from the capabilities. -/
def Takes (items : List Toml) (grants : List String) : Prop :=
  List.Forall₂ (fun value grant => ∃ own, CapabilityToml.decode value = .ok own ∧
    grantString own = .ok grant) items grants

theorem parseManifest_ok {text : String} {members : List (String × Toml)} {version : Semver}
    {manifest : Catalog.ManifestToml} {declared : SortedMap String String} {found : Manifest}
    (laws : formats.Laws) (htoml : formats.toml text = .ok (.table members))
    (hdecode : Catalog.ManifestToml.decode (.table members) = .ok manifest)
    (hcheck : Catalog.checkManifest formats manifest = .ok version)
    (hdeclared : declaredFiles (fun path => normalizeRelPath (utf8 path.toList))
      (fun path => manifestError ("duplicate [files] entry: " ++ path)) manifest.files = .ok declared) :
    parseManifest formats text = .ok found ↔ ∃ limits grants,
      readLimits ((documentField "runtime" (.table members)).bind limitsField) = .ok limits ∧
      Takes (capabilityItems (.table members)) grants ∧
      found = ⟨manifest.name, manifest.version, manifest.runtime.abi, manifest.platforms,
        limits.timeoutMs, limits.memoryMb, declared, grants⟩ := by
  obtain ⟨hschema, hname, hversion, hkind, -⟩ := checkManifest_ok hcheck
  have hblank : blank manifest.name = false := not_blank_of_validSkillName hname
  have hblankVersion : blank manifest.version = false :=
    List.isEmpty_eq_false_iff.mpr (laws.version _ _ hversion).2
  unfold parseManifest Takes
  rw [htoml]
  simp only [Check.bind_eq_ok, Check.mapError_eq_ok, Check.throw_bind, Check.ite_throw_eq_ok,
    Check.pure_eq_ok, Except.bind, ← Check.mapM_mapM_eq_ok, manifest_decode_ok hdecode]
  constructor
  · rintro ⟨own, ⟨limits, capabilities, hlimits, hcapabilities, rfl⟩, -, -, -, files, hfiles, grants,
      hgrants, rfl⟩
    cases hdeclared.symm.trans hfiles
    exact ⟨limits, grants, hlimits, ⟨capabilities, hcapabilities, hgrants⟩, rfl⟩
  · rintro ⟨limits, grants, hlimits, ⟨capabilities, hcapabilities, hgrants⟩, rfl⟩
    exact ⟨_, ⟨limits, capabilities, hlimits, hcapabilities, rfl⟩, not_not.mpr hschema,
      not_not.mpr hkind, by simp [hblank, hblankVersion], declared, hdeclared, grants, hgrants, rfl⟩

/-- What the node opens of an accepted package. -/
theorem openPackage_ok {doc : Toml} {package : Package} (laws : formats.Laws)
    (h : Catalog.acceptUpload formats body = .ok parsed)
    (hdoc : formats.toml parsed.manifestToml = .ok doc) :
    openPackage formats body parsed.name parsed.version = .ok package ↔
      ∃ files limits grants, Catalog.unpack formats body = .ok files ∧
        readLimits ((documentField "runtime" doc).bind limitsField) = .ok limits ∧
        Takes (capabilityItems doc) grants ∧ (∀ grant ∈ grants, checkGrant grant = .ok ()) ∧
        package = ⟨⟨parsed.name, parsed.version, abi, parsed.platforms, limits.timeoutMs,
          limits.memoryMb, parsed.files, grants⟩, files⟩ := by
  obtain ⟨members, rfl⟩ := laws.document _ _ hdoc
  obtain ⟨hsize, files, manifestBytes, text, manifest, version, hunpack, hwasm, hmanifest, htext,
    hparsed, hdecode, hcheck, hdeclared, hverify, -, hname, hversion, hplatforms⟩ := acceptUpload_ok h
  rw [hdoc] at hdecode
  obtain ⟨-, -, hsemver, -, habi⟩ := checkManifest_ok hcheck
  have hversionText : parsed.version = manifest.version :=
    hversion.trans (laws.version _ _ hsemver).1
  have hunpackNode : unpack formats body = .ok files := unpackWith_mono unpackRules_allows hunpack
  have hparse : ∀ found, parseManifest formats parsed.manifestToml = .ok found ↔ ∃ limits grants,
      readLimits ((documentField "runtime" (.table members)).bind limitsField) = .ok limits ∧
      Takes (capabilityItems (.table members)) grants ∧
      found = ⟨parsed.name, parsed.version, abi, parsed.platforms, limits.timeoutMs,
        limits.memoryMb, parsed.files, grants⟩ := by
    intro found
    rw [hname, hversionText, ← habi, hplatforms]
    exact parseManifest_ok laws hdoc hdecode hcheck
      (declaredFiles_mono (fun _ _ => normalizeRelStr_ok) hdeclared)
  unfold openPackage loadPackageInner
  simp only [Check.throw_bind, Check.ite_throw_eq_ok, Check.bind_eq_ok]
  constructor
  · rintro ⟨-, files', hfiles, h⟩
    cases hunpackNode.symm.trans hfiles
    simp only [hmanifest, htext, ← hparsed, Check.bind_eq_ok, Check.ite_throw_eq_ok,
      Check.pure_eq_ok] at h
    obtain ⟨found, hfound, _, -, -, _, -, -, _, hgrants, rfl⟩ := h
    obtain ⟨limits, grants, hlimits, htakes, rfl⟩ := (hparse found).mp hfound
    exact ⟨files, limits, grants, hunpack, hlimits, htakes, Check.forM_eq_ok.mp hgrants, rfl⟩
  · rintro ⟨files', limits, grants, hfiles, hlimits, htakes, hgrants, rfl⟩
    cases hunpack.symm.trans hfiles
    refine ⟨not_lt.mpr hsize, files, hunpackNode, ?_⟩
    simp only [hmanifest, htext, ← hparsed, Check.bind_eq_ok, Check.ite_throw_eq_ok,
      Check.pure_eq_ok]
    refine ⟨_, (hparse _).mpr ⟨limits, grants, hlimits, htakes, rfl⟩, (), ?_, not_not.mpr rfl, (),
      verifyFiles_ok hverify, by simp [hwasm], (), Check.forM_eq_ok.mpr hgrants, rfl⟩
    simp [checkExpected]

/-! ## Both sides -/

/-- The capabilities of an accepted package, one by one. -/
theorem accepted_items {doc : Toml} (laws : formats.Laws)
    (h : Catalog.acceptUpload formats body = .ok parsed)
    (hdoc : formats.toml parsed.manifestToml = .ok doc) :
    List.Forall₂ (fun value view => ∃ cap, Catalog.CapabilityToml.decode value = .ok cap ∧
      Catalog.validateCapability cap = .ok view) (capabilityItems doc) parsed.capabilities := by
  obtain ⟨members, rfl⟩ := laws.document _ _ hdoc
  obtain ⟨-, -, -, -, manifest, -, -, -, -, -, -, hdecode, -, -, -, hcaps, -⟩ := acceptUpload_ok h
  rw [hdoc] at hdecode
  refine Check.mapM_mapM_eq_ok.mp ⟨manifest.capabilities, ?_, hcaps⟩
  have hdecode : Catalog.ManifestToml.decode (.table members) = .ok manifest := hdecode
  unfold Catalog.ManifestToml.decode at hdecode
  simp only [Check.bind_eq_ok, Check.pure_eq_ok] at hdecode
  obtain ⟨get, hget, -, -, -, -, -, -, -, -, -, -, -, -, -, -, -, -, -, -, -, -, capabilities,
    hcapabilities, rfl⟩ := hdecode
  cases hget
  exact (@capabilityItems_mapM _ _ CapabilityToml _ CapabilityToml.decode _ hcapabilities).1

theorem checkGrant_ok {grant : String} : checkGrant grant = .ok () ↔ grantName grant ∈ catalog := by
  unfold checkGrant
  split
  · next h => exact iff_of_true rfl h
  · next h => exact iff_of_false (fun heq => nomatch heq) h

/-- The node has a grant for an accepted capability when it can read `grant`. -/
theorem item_readable {value : Toml} {cap : Catalog.CapabilityToml} {view : Catalog.CapabilityView}
    (hdecode : Catalog.CapabilityToml.decode value = .ok cap)
    (hview : Catalog.validateCapability cap = .ok view) :
    (∃ grant, (∃ own, CapabilityToml.decode value = .ok own ∧ grantString own = .ok grant) ∧
      checkGrant grant = .ok ()) ↔ readableGrant value = true := by
  simp only [node_grant_iff hdecode hview, checkGrant_ok]
  have hcatalog : grantName view.grant ∈ catalog := by
    obtain ⟨hpair, hname, -⟩ := grantPair_view hview
    rw [← grantPair_fst, hpair, hname]
    exact (accepted_parts hview).1
  unfold statedGrant readableGrant
  cases grantField value with
  | none => exact iff_of_true ⟨_, rfl, hcatalog⟩ rfl
  | some given =>
    cases given with
    | str text =>
      by_cases hempty : text = ""
      · simp [hempty, hcatalog]
      · simp [hempty]
    | _ => simp

/-- The node opens an accepted package when it can read the keys of its own. -/
theorem opens_iff_readable {doc : Toml} (laws : formats.Laws)
    (h : Catalog.acceptUpload formats body = .ok parsed)
    (hdoc : formats.toml parsed.manifestToml = .ok doc) :
    (∃ package, openPackage formats body parsed.name parsed.version = .ok package) ↔
      readable doc = true := by
  have hitems : (∃ grants, Takes (capabilityItems doc) grants ∧
      ∀ grant ∈ grants, checkGrant grant = .ok ()) ↔
      ∀ value ∈ capabilityItems doc, readableGrant value = true := by
    refine Check.exists_forall₂_iff.trans (forall₂_congr fun value hvalue => ?_)
    obtain ⟨view, -, cap, hdecode, hview⟩ :=
      Check.exists_of_mem_left (accepted_items laws h hdoc) hvalue
    exact item_readable hdecode hview
  unfold readable
  rw [Bool.and_eq_true, List.all_eq_true, ← readLimits_ok, ← hitems]
  constructor
  · rintro ⟨package, hopen⟩
    obtain ⟨-, limits, grants, -, hlimits, htakes, hgrants, -⟩ := (openPackage_ok laws h hdoc).mp hopen
    exact ⟨⟨limits, hlimits⟩, grants, htakes, hgrants⟩
  · rintro ⟨⟨limits, hlimits⟩, grants, htakes, hgrants⟩
    obtain ⟨-, files, -, -, -, -, hunpack, -⟩ := acceptUpload_ok h
    exact ⟨_, (openPackage_ok laws h hdoc).mpr ⟨files, limits, grants, hunpack, hlimits, htakes,
      hgrants, rfl⟩⟩

/-- An accepted capability is displayed with its raw name and scope. -/
theorem declaredPair_eq {value : Toml} {cap : Catalog.CapabilityToml} {view : Catalog.CapabilityView}
    (hdecode : Catalog.CapabilityToml.decode value = .ok cap)
    (hview : Catalog.validateCapability cap = .ok view) :
    declaredPair value = (view.name, view.scope) := by
  obtain ⟨-, hviewName, hviewScope⟩ := grantPair_view hview
  unfold Catalog.CapabilityToml.decode at hdecode
  simp only [Check.bind_eq_ok, Check.pure_eq_ok] at hdecode
  obtain ⟨get, hget, name, hname, scope, hscope, reason, -, rfl⟩ := hdecode
  obtain ⟨get', hget', hshared⟩ := @Toml.fields_append ["name", "scope"] ["reason"] ["grant"] _ _ hget
  have hfield : ∀ key ∈ ["name", "scope"], field ["name", "scope", "grant"] key value = get key :=
    fun key hkey => (field_eq hget').trans (hshared key hkey)
  have hnameEq : textField "name" value = some name := by
    unfold Toml.required at hname
    rw [textField, hfield "name" (by simp)]
    cases hfound : get "name" with
    | none =>
      rw [hfound] at hname
      cases hname
    | some given =>
      rw [hfound] at hname
      cases given with
      | str text =>
        cases hname
        rfl
      | _ => cases hname
  have hscopeEq : textField "scope" value = scope := by
    unfold Toml.optional at hscope
    rw [textField, hfield "scope" (by simp)]
    cases hfound : get "scope" with
    | none =>
      rw [hfound] at hscope
      cases hscope
      rfl
    | some given =>
      rw [hfound] at hscope
      cases given with
      | str text =>
        cases hscope
        rfl
      | _ => cases hscope
  rw [declaredPair, hnameEq, hscopeEq, hviewName, hviewScope]
  rfl

/-- The grant that the node takes is cut into what the raw capability states. -/
theorem statedPair_eq {value : Toml} {cap : Catalog.CapabilityToml} {view : Catalog.CapabilityView}
    {grant : String} (hdecode : Catalog.CapabilityToml.decode value = .ok cap)
    (hview : Catalog.validateCapability cap = .ok view)
    (hgrant : statedGrant value view.grant = some grant) : grantPair grant = statedPair value := by
  have hdeclared : grantPair view.grant = declaredPair value := by
    rw [declaredPair_eq hdecode hview]
    exact (grantPair_view hview).1
  unfold statedGrant at hgrant
  unfold statedPair
  cases hfield : grantField value with
  | none =>
    rw [hfield] at hgrant
    cases hgrant
    exact hdeclared
  | some given =>
    rw [hfield] at hgrant
    cases given with
    | str text =>
      cases hgrant
      by_cases hempty : text = ""
      · simp [hempty, hdeclared]
      · simp [hempty]
    | _ => cases hgrant

theorem map_eq_of_forall₂ {α β γ : Type} {r : α → β → Prop} {f : α → γ} {g : β → γ} {xs : List α}
    {ys : List β} (h : List.Forall₂ r xs ys) (hr : ∀ x y, r x y → f x = g y) :
    xs.map f = ys.map g := by
  induction h with
  | nil => rfl
  | cons hxy _ ih => rw [List.map_cons, List.map_cons, hr _ _ hxy, ih]

/-! ## Two packages -/

def wasmModule : Bytes := [0x00, 0x61, 0x73, 0x6D, 0x0D, 0x00, 0x01, 0x00]

/-- The empty object. -/
def paramsSchema : Bytes := [0x7B, 0x7D]

def wasmHash : String := "24eaf3439a60c96764c4f2c92a0a81b52bd4fe5d5b91f090184a0f6486b1bf29"

def paramsHash : String := "44136fa355b3678a1146ad16f7e8649e94fb4fc21fe77e8310c060f61caaff8a"

/-- A manifest with a line in `[runtime]` and one in its capability. -/
def uptimeToml (limits grant : String) : List Char :=
  ["schema_version = 1\n", "name = \"uptime\"\n", "version = \"1.0.0\"\n",
    "platforms = [\"linux/amd64\"]\n", "[runtime]\n", "kind = \"wasm\"\n",
    "abi = \"novbot:skill@1\"\n", limits, "[files]\n", "\"module.wasm\" = \"", wasmHash, "\"\n",
    "\"schema/params.json\" = \"", paramsHash, "\"\n",
    "[[capabilities]]\n", "name = \"sys.info.read\"\n", grant].flatMap String.toList

def uptimeDocument (limits grant : List (String × Toml)) : List (String × Toml) :=
  [("schema_version", .int 1), ("name", .str "uptime"), ("version", .str "1.0.0"),
    ("platforms", .arr [.str "linux/amd64"]),
    ("runtime", .table ([("kind", .str "wasm"), ("abi", .str "novbot:skill@1")] ++ limits)),
    ("files", .table [("module.wasm", .str wasmHash), ("schema/params.json", .str paramsHash)]),
    ("capabilities", .arr [.table (("name", .str "sys.info.read") :: grant)])]

/-- The formats, as far as one package needs them. -/
def uptimeFormats (package : Bytes) (hash : String) (toml : List Char)
    (document : List (String × Toml)) : Formats where
  archive bytes :=
    if bytes = package then
      .ok ([("skill.toml", utf8 toml), ("module.wasm", wasmModule),
        ("schema/params.json", paramsSchema)].map fun (path, data) =>
          .ok ⟨.regular, .ok (utf8 path.toList), .ok data.length, .ok data⟩)
    else .error "invalid gzip header"
  toml _ := .ok (.table document)
  json := ⟨fun _ => some (.obj []), fun _ => "[\"sys.info.read\"]"⟩
  sha256 bytes :=
    if bytes = wasmModule then wasmHash
    else if bytes = paramsSchema then paramsHash
    else if bytes = package then hash
    else "cd3e8bd2e5ad4111639ca6f8bf904ccdb5013d520b20bb15f6526e423b37f467"
  semver text := if text = "1.0.0" then some ⟨1, 0, 0, "", "1.0.0"⟩ else none

theorem uptimeFormats_laws (package : Bytes) (hash : String) (toml : List Char)
    (document : List (String × Toml)) : (uptimeFormats package hash toml document).Laws where
  document text doc h := ⟨document, (Except.ok.inj h).symm⟩
  version text version h := by
    simp only [uptimeFormats] at h
    split at h
    · next htext =>
      cases h
      rw [htext]
      exact ⟨rfl, by decide⟩
    · cases h

/-- A package with `limits.timeout_ms = -1`. -/
def negativePackage : Bytes :=
  [31, 139, 8, 0, 0, 0, 0, 0, 2, 3, 237, 212, 205, 110, 220, 32, 16, 0, 96, 231, 138, 212, 119, 88,
   113, 175, 195, 216, 24, 219, 149, 42, 245, 61, 172, 85, 52, 216, 160, 208, 128, 89, 25, 59, 63,
   170, 250, 238, 197, 219, 42, 77, 115, 239, 166, 106, 230, 187, 96, 131, 102, 48, 224, 33, 221,
   57, 239, 203, 53, 6, 95, 252, 53, 34, 83, 82, 158, 219, 236, 117, 43, 26, 245, 60, 246, 171,
   191, 109, 85, 83, 28, 68, 113, 1, 91, 90, 113, 201, 83, 22, 239, 83, 26, 111, 77, 192, 155, 123,
   179, 36, 23, 231, 195, 231, 3, 176, 25, 131, 201, 15, 124, 59, 173, 46, 24, 206, 126, 143, 113,
   40, 69, 41, 56, 59, 121, 92, 109, 92, 66, 202, 125, 3, 247, 110, 222, 30, 175, 49, 76, 74, 242,
   35, 27, 150, 109, 222, 227, 142, 236, 206, 205, 211, 30, 244, 128, 41, 112, 134, 218, 237, 47,
   115, 188, 215, 113, 253, 148, 246, 223, 238, 11, 112, 230, 93, 112, 107, 42, 247, 136, 184, 173,
   55, 231, 148, 31, 129, 13, 214, 121, 147, 142, 140, 135, 56, 109, 222, 148, 231, 28, 123, 124,
   37, 13, 218, 90, 214, 61, 42, 49, 246, 170, 85, 114, 148, 182, 26, 251, 10, 5, 118, 160, 155,
   74, 79, 210, 154, 102, 106, 116, 15, 86, 244, 2, 58, 137, 194, 42, 217, 41, 13, 218, 86, 61,
   103, 252, 231, 146, 175, 79, 184, 96, 72, 229, 215, 20, 231, 115, 102, 41, 161, 86, 22, 235,
   166, 209, 181, 106, 59, 4, 144, 10, 39, 80, 182, 53, 157, 146, 189, 233, 165, 213, 210, 142, 21,
   88, 211, 230, 174, 26, 196, 40, 84, 78, 13, 35, 162, 181, 29, 114, 54, 12, 35, 158, 242, 58,
   189, 91, 93, 254, 248, 227, 243, 78, 166, 167, 84, 186, 217, 198, 114, 49, 56, 113, 246, 47,
   157, 255, 139, 253, 125, 179, 250, 23, 32, 254, 172, 127, 16, 0, 21, 213, 255, 69, 228, 131,
   255, 80, 92, 21, 228, 61, 223, 255, 47, 47, 195, 55, 168, 127, 81, 189, 170, 127, 168, 155, 154,
   234, 255, 18, 190, 125, 167, 26, 32, 132, 16, 66, 8, 33, 132, 16, 66, 8, 33, 132, 16, 66, 8, 33,
   132, 144, 255, 193, 15, 98, 97, 228, 249, 0, 40, 0, 0]

def negativeFormats : Formats :=
  uptimeFormats negativePackage "aba1e4398a898f0ae67312ebccb0c8ae86c0b4e7cc9a0e4bfc42f81c04d1efe8"
    (uptimeToml "limits.timeout_ms = -1\n" "")
    (uptimeDocument [("limits", .table [("timeout_ms", .int (-1))])] [])

/-- A package with `grant = "fs.read:/**"`. -/
def widerPackage : Bytes :=
  [31, 139, 8, 0, 0, 0, 0, 0, 2, 3, 237, 212, 205, 110, 220, 32, 16, 0, 96, 247, 138, 212, 119, 88,
   113, 204, 193, 203, 24, 140, 237, 72, 149, 250, 30, 171, 85, 53, 216, 144, 208, 24, 188, 50,
   118, 154, 168, 234, 187, 23, 111, 164, 52, 205, 189, 155, 42, 153, 239, 2, 30, 27, 204, 223,
   144, 238, 252, 56, 150, 203, 20, 198, 226, 159, 17, 153, 86, 234, 92, 102, 175, 75, 81, 107,
   249, 92, 127, 138, 55, 141, 86, 197, 78, 20, 23, 176, 166, 5, 231, 252, 203, 226, 99, 74, 253,
   173, 13, 248, 237, 222, 206, 201, 79, 113, 247, 101, 7, 44, 98, 176, 185, 194, 215, 211, 226,
   131, 229, 236, 207, 59, 14, 165, 40, 5, 103, 167, 17, 23, 55, 205, 33, 229, 216, 129, 143, 62,
   174, 15, 123, 12, 131, 86, 252, 200, 14, 243, 26, 183, 118, 71, 118, 231, 227, 176, 53, 250,
   129, 41, 112, 134, 198, 111, 15, 113, 186, 55, 211, 114, 157, 182, 99, 247, 21, 56, 59, 56, 63,
   218, 116, 100, 60, 76, 195, 58, 218, 242, 252, 241, 246, 97, 165, 44, 58, 169, 100, 135, 90,
   244, 157, 206, 7, 162, 87, 174, 234, 187, 10, 5, 182, 96, 234, 202, 12, 202, 217, 122, 168, 77,
   7, 78, 116, 2, 90, 133, 194, 105, 213, 106, 3, 198, 85, 29, 103, 252, 105, 110, 251, 19, 206,
   24, 82, 249, 61, 77, 241, 220, 179, 82, 32, 181, 67, 89, 215, 70, 234, 166, 69, 0, 165, 113, 0,
   237, 26, 219, 106, 213, 217, 78, 57, 163, 92, 95, 129, 179, 77, 14, 73, 16, 189, 208, 185, 107,
   232, 17, 157, 107, 49, 15, 250, 208, 227, 41, 79, 104, 244, 139, 207, 131, 63, 62, 47, 89, 122,
   76, 165, 143, 110, 42, 103, 139, 3, 103, 55, 51, 198, 101, 139, 187, 116, 142, 92, 239, 175,
   174, 56, 251, 175, 246, 255, 197, 178, 191, 89, 254, 11, 16, 127, 231, 63, 8, 128, 138, 242,
   255, 34, 242, 198, 127, 46, 62, 21, 228, 35, 223, 255, 47, 239, 200, 55, 200, 127, 81, 189, 202,
   127, 144, 181, 164, 252, 191, 132, 159, 191, 40, 7, 8, 33, 132, 16, 66, 8, 33, 132, 16, 66, 8,
   33, 132, 16, 66, 8, 33, 228, 61, 248, 13, 14, 75, 40, 67, 0, 40, 0, 0]

def widerMembers : List (String × Toml) := uptimeDocument [] [("grant", .str "fs.read:/**")]

def widerDocument : Toml := .table widerMembers

def widerFormats : Formats :=
  uptimeFormats widerPackage "ca6785667b9a216052744c61b16a5b35aab014c247434606dd680b544ab51eb9"
    (uptimeToml "" "grant = \"fs.read:/**\"\n") widerMembers

theorem widerPackage_accepted :
    ∃ parsed, Catalog.acceptUpload widerFormats widerPackage = .ok parsed := by
  have hok : (Catalog.acceptUpload widerFormats widerPackage).isOk = true := by decide +kernel
  cases h : Catalog.acceptUpload widerFormats widerPackage with
  | error err =>
    rw [h] at hok
    cases hok
  | ok parsed => exact ⟨parsed, rfl⟩

/-! ## What the node opens -/

/-- The node opens an accepted package, with the same name, version and hashes,
exactly when it can read the keys that only it looks at. -/
theorem accepted_opens_iff {doc : Toml} (laws : formats.Laws)
    (h : Catalog.acceptUpload formats body = .ok parsed)
    (hdoc : formats.toml parsed.manifestToml = .ok doc) :
    (∃ package, openPackage formats body parsed.name parsed.version = .ok package ∧
      package.manifest.name = parsed.name ∧ package.manifest.version = parsed.version ∧
      package.manifest.files = parsed.files) ↔ readable doc = true := by
  rw [← opens_iff_readable laws h hdoc]
  constructor
  · rintro ⟨package, hopen, -⟩
    exact ⟨package, hopen⟩
  · rintro ⟨package, hopen⟩
    obtain ⟨files, limits, grants, -, -, -, -, rfl⟩ := (openPackage_ok laws h hdoc).mp hopen
    exact ⟨_, hopen, rfl, rfl, rfl⟩

theorem accepted_opens_iff_wider :
    ∃ parsed, Catalog.acceptUpload widerFormats widerPackage = .ok parsed ∧
      ((∃ package, openPackage widerFormats widerPackage parsed.name parsed.version = .ok package ∧
        package.manifest.name = parsed.name ∧ package.manifest.version = parsed.version ∧
        package.manifest.files = parsed.files) ↔ readable widerDocument = true) := by
  obtain ⟨parsed, h⟩ := widerPackage_accepted
  exact ⟨parsed, h, accepted_opens_iff (uptimeFormats_laws _ _ _ _) h rfl⟩

/-- A negative limit passes at upload, and no node opens the package. -/
theorem negative_limit_refused :
    (Catalog.acceptUpload negativeFormats negativePackage).toOption.map
        (fun parsed => (parsed.name, parsed.version)) = some ("uptime", "1.0.0") ∧
      (openPackage negativeFormats negativePackage "uptime" "1.0.0").isOk = false := by
  decide +kernel

/-! ## What the node grants -/

/-- The node grants what was displayed, and hashed, of an accepted package exactly
when `sameGrants` holds of a document that it can read. -/
theorem granted_eq_displayed_iff {doc : Toml} (laws : formats.Laws)
    (h : Catalog.acceptUpload formats body = .ok parsed)
    (hdoc : formats.toml parsed.manifestToml = .ok doc) :
    (∀ package, openPackage formats body parsed.name parsed.version = .ok package → ∀ pair,
      (pair ∈ package.manifest.grants.map grantPair ↔
        pair ∈ parsed.capabilities.map fun view => (view.name, view.scope)) ∧
      (pair ∈ package.manifest.grants.map grantPair ↔
        pair ∈ (parsed.capabilities.map (·.grant)).map grantPair)) ↔
      (readable doc = true → sameGrants doc = true) := by
  have hitems := accepted_items laws h hdoc
  have hdisplayed : (capabilityItems doc).map declaredPair =
      parsed.capabilities.map fun view => (view.name, view.scope) :=
    map_eq_of_forall₂ hitems fun value view ⟨cap, hdecode, hview⟩ => declaredPair_eq hdecode hview
  have hhashed : (capabilityItems doc).map declaredPair =
      (parsed.capabilities.map (·.grant)).map grantPair := by
    rw [List.map_map]
    exact map_eq_of_forall₂ hitems fun value view ⟨cap, hdecode, hview⟩ =>
      (declaredPair_eq hdecode hview).trans (grantPair_view hview).1.symm
  have hgranted : ∀ grants, Takes (capabilityItems doc) grants →
      (capabilityItems doc).map statedPair = grants.map grantPair := by
    intro grants htakes
    refine map_eq_of_forall₂ ((List.forall₂_and_left _ _).mpr
      ⟨fun value hvalue => Check.exists_of_mem_left hitems hvalue, htakes⟩) ?_
    rintro value grant ⟨⟨view, -, cap, hdecode, hview⟩, htaken⟩
    exact (statedPair_eq hdecode hview ((node_grant_iff hdecode hview).mp htaken)).symm
  have hsame : sameGrants doc = true ↔ ∀ pair,
      (pair ∈ (capabilityItems doc).map statedPair ↔ pair ∈ (capabilityItems doc).map declaredPair) := by
    simp only [sameGrants, List.all_eq_true, Bool.and_eq_true, List.contains_iff_mem]
    constructor
    · intro hall pair
      constructor
      · intro hpair
        obtain ⟨cap, hcap, rfl⟩ := List.mem_map.mp hpair
        exact (hall cap hcap).1
      · intro hpair
        obtain ⟨cap, hcap, rfl⟩ := List.mem_map.mp hpair
        exact (hall cap hcap).2
    · intro hall cap hcap
      exact ⟨(hall _).mp (List.mem_map_of_mem hcap), (hall _).mpr (List.mem_map_of_mem hcap)⟩
  rw [hsame, ← hdisplayed, ← hhashed]
  simp only [and_self]
  constructor
  · intro hall hreadable
    obtain ⟨package, hopen⟩ := (opens_iff_readable laws h hdoc).mpr hreadable
    obtain ⟨_, limits, grants, -, -, htakes, -, rfl⟩ := (openPackage_ok laws h hdoc).mp hopen
    rw [hgranted grants htakes]
    exact hall _ hopen
  · intro hall package hopen
    obtain ⟨files, limits, grants, -, hlimits, htakes, -, rfl⟩ := (openPackage_ok laws h hdoc).mp hopen
    have hreadable : readable doc = true := (opens_iff_readable laws h hdoc).mp ⟨_, hopen⟩
    rw [← hgranted grants htakes]
    exact hall hreadable

theorem granted_eq_displayed_iff_wider :
    ∃ parsed, Catalog.acceptUpload widerFormats widerPackage = .ok parsed ∧
      ((∀ package, openPackage widerFormats widerPackage parsed.name parsed.version = .ok package →
        ∀ pair, (pair ∈ package.manifest.grants.map grantPair ↔
            pair ∈ parsed.capabilities.map fun view => (view.name, view.scope)) ∧
          (pair ∈ package.manifest.grants.map grantPair ↔
            pair ∈ (parsed.capabilities.map (·.grant)).map grantPair)) ↔
        (readable widerDocument = true → sameGrants widerDocument = true)) := by
  obtain ⟨parsed, h⟩ := widerPackage_accepted
  exact ⟨parsed, h, granted_eq_displayed_iff (uptimeFormats_laws _ _ _ _) h rfl⟩

/-- A capability is displayed as reading system information, and granted as reading
every file. -/
theorem wider_grant_hidden :
    (Catalog.acceptUpload widerFormats widerPackage).toOption.map
        (fun parsed => parsed.capabilities.map fun view => (view.name, view.scope)) =
        some [("sys.info.read", none)] ∧
      (openPackage widerFormats widerPackage "uptime" "1.0.0").toOption.map
        (fun package => package.manifest.grants.map grantPair) =
        some [("fs.read", some "/**")] := by
  decide +kernel

end Novbot.Skills
