import Novbot.Pack.Decoded

/-!
# Normal manifests

What `parse` guarantees of a manifest, and when reading what was written gives it again: every
text but one is trimmed before it is written.  A scope is not, when the grant has white space
after its colon.
-/

namespace Novbot.Pack

open Novbot.Package Text Toml

/-! ## Capabilities -/

structure Capability.Sound (cap : Capability) : Prop where
  name : cap.name ≠ ""
  colon : ':' ∉ cap.name.toList
  scope : cap.scope ≠ some ""
  reason : nonempty cap.reason = cap.reason

theorem trimmed_trimmed (text : String) : trimmed (trimmed text) = trimmed text := by
  rw [trimmed, trimmed, String.toList_ofList, trim_trim]

theorem nonempty_some {text : String} (h : trimmed text ≠ "") :
    nonempty (some text) = some (trimmed text) := by
  rw [nonempty, Option.map_some, Option.filter_some, if_pos (decide_eq_true h)]

theorem nonempty_nonempty (value : Option String) : nonempty (nonempty value) = nonempty value := by
  cases value with
  | none => rfl
  | some text =>
    by_cases h : trimmed text = ""
    · rw [nonempty, nonempty, Option.map_some, h]
      rfl
    · rw [nonempty_some h, nonempty_some (by rwa [trimmed_trimmed]), trimmed_trimmed]

theorem nonempty_ne {value : Option String} {text : String} (h : nonempty value = some text) :
    text ≠ "" := by
  have hfilter := (Option.filter_eq_some_iff.mp h).2
  exact of_decide_eq_true hfilter

theorem toList_grant (name scope : String) (reason : Option String) :
    (Capability.grant ⟨name, some scope, reason⟩).toList = name.toList ++ ':' :: scope.toList := by
  simp [Capability.grant]

theorem preferred_ne {raw : RawCapability} {preferred : String} (h : raw.preferred = .ok preferred) :
    preferred ≠ "" := by
  unfold RawCapability.preferred at h
  split at h
  · next hgrant =>
    cases h
    exact nonempty_ne hgrant
  · split at h
    · next name hname =>
      split at h
      · cases h
        intro hempty
        have hlist := congrArg String.toList hempty
        simp at hlist
      · cases h
        exact nonempty_ne hname
    · cases h

theorem ofList_ne {cs : List Char} (h : cs ≠ []) : String.ofList cs ≠ "" := by
  intro hempty
  have hlist := congrArg String.toList hempty
  rw [String.toList_ofList] at hlist
  exact h hlist

theorem toList_ne {text : String} (h : text ≠ "") : text.toList ≠ [] := fun hnil =>
  h (String.toList_inj.mp hnil)

/-- A normalized capability is the one whose grant was preferred. -/
theorem normalizeCapability_iff {raw : RawCapability} {cap : Capability} :
    normalizeCapability raw = .ok cap ↔
      raw.preferred = .ok cap.grant ∧ cap.reason = nonempty raw.reason ∧ cap.Sound := by
  unfold normalizeCapability
  rw [Check.bind_eq_ok]
  constructor
  · rintro ⟨preferred, hpreferred, h⟩
    split at h
    · next name scope hsplit =>
      obtain ⟨hlist, hcolon⟩ := splitOnce_some.mp hsplit
      split_ifs at h with hne
      cases h
      have hgrant : preferred = Capability.grant
          ⟨.ofList name, some (.ofList scope), nonempty raw.reason⟩ := by
        rw [← String.toList_inj, toList_grant, String.toList_ofList, String.toList_ofList, hlist]
      refine ⟨hgrant ▸ hpreferred, rfl, ofList_ne hne.1, ?_, ?_, nonempty_nonempty _⟩
      · rwa [String.toList_ofList]
      · exact fun hscope => ofList_ne hne.2 (Option.some.inj hscope)
    · next hsplit =>
      cases h
      exact ⟨hpreferred, rfl, preferred_ne hpreferred, splitOnce_none.mp hsplit, nofun,
        nonempty_nonempty _⟩
  · rintro ⟨hpreferred, hreason, hsound⟩
    refine ⟨_, hpreferred, ?_⟩
    obtain ⟨name, scope, reason⟩ := cap
    cases scope with
    | none =>
      have hsplit : splitOnce ':' (Capability.grant ⟨name, none, reason⟩).toList = none :=
        splitOnce_none.mpr hsound.colon
      rw [hsplit, ← hreason]
      rfl
    | some scope =>
      have hsplit : splitOnce ':' (Capability.grant ⟨name, some scope, reason⟩).toList =
          some (name.toList, scope.toList) :=
        splitOnce_some.mpr ⟨toList_grant name scope reason, hsound.colon⟩
      have hscope : scope.toList ≠ [] := toList_ne fun hempty => hsound.scope (congrArg some hempty)
      rw [hsplit]
      dsimp only
      rw [if_pos ⟨toList_ne hsound.name, hscope⟩, String.ofList_toList, String.ofList_toList, ← hreason]
      rfl

theorem nonempty_eq_some_iff {value : String} :
    nonempty (some value) = some value ↔ trimmed value = value ∧ value ≠ "" := by
  constructor
  · intro h
    have hmap := Option.eq_some_of_filter_eq_some h
    exact ⟨Option.some.inj hmap, nonempty_ne h⟩
  · rintro ⟨htrimmed, hne⟩
    rw [nonempty_some (by rwa [htrimmed]), htrimmed]

theorem grant_scope {name : String} {reason : Option String} {scope scope' : Option String}
    (h : Capability.grant ⟨name, scope, reason⟩ = Capability.grant ⟨name, scope', reason⟩) :
    scope = scope' := by
  have hlist := congrArg String.toList h
  cases scope with
  | none =>
    cases scope' with
    | none => rfl
    | some scope' =>
      rw [toList_grant] at hlist
      have hlength := congrArg List.length hlist
      rw [List.length_append, List.length_cons] at hlength
      simp [Capability.grant] at hlength
  | some scope =>
    cases scope' with
    | none =>
      rw [toList_grant] at hlist
      have hlength := congrArg List.length hlist
      rw [List.length_append, List.length_cons] at hlength
      simp [Capability.grant] at hlength
    | some scope' =>
      rw [toList_grant, toList_grant, List.append_cancel_left_eq, List.cons.injEq,
        String.toList_inj] at hlist
      rw [hlist.2]

/-- What is written is read as the same capability if the scope is trimmed. -/
theorem normalizeCapability_raw {cap : Capability} (hsound : cap.Sound)
    (hname : trimmed cap.name = cap.name) :
    normalizeCapability cap.raw = .ok cap ↔ ∀ scope ∈ cap.scope, trimmed scope = scope := by
  rw [normalizeCapability_iff]
  obtain ⟨name, scope, reason⟩ := cap
  have hkept : nonempty (some name) = some name := by
    rw [nonempty_some (by rw [hname]; exact hsound.name), hname]
  have hpreferred : RawCapability.preferred (Capability.raw ⟨name, scope, reason⟩) =
      .ok (Capability.grant ⟨name, nonempty scope, reason⟩) := by
    rw [Capability.raw, RawCapability.preferred]
    dsimp only
    rw [hkept]
    cases h : nonempty scope with
    | none => rfl
    | some scope => rfl
  have hscope : nonempty scope = scope ↔ ∀ text ∈ scope, trimmed text = text := by
    cases scope with
    | none => simp [nonempty]
    | some text =>
      have hne : text ≠ "" := fun hempty => hsound.scope (congrArg some hempty)
      rw [nonempty_eq_some_iff, and_iff_left hne]
      simp
  rw [hpreferred, ← hscope]
  constructor
  · rintro ⟨hgrant, -, -⟩
    exact grant_scope (Except.ok.inj hgrant)
  · intro hsame
    exact ⟨by rw [hsame], hsound.reason.symm, hsound⟩

/-! ## Manifests -/

structure Manifest.Normal (manifest : Manifest) : Prop where
  name : trimmed manifest.name = manifest.name ∧ manifest.name ≠ ""
  version : trimmed manifest.version = manifest.version ∧ manifest.version ≠ ""
  displayName : nonempty manifest.displayName = manifest.displayName
  description : nonempty manifest.description = manifest.description
  publisher : nonempty manifest.publisher = manifest.publisher
  minNodeVersion : nonempty manifest.minNodeVersion = manifest.minNodeVersion
  capabilities : ∀ cap ∈ manifest.capabilities, cap.Sound

/-- What `normalize` keeps of the document. -/
structure Normalizes (raw : RawManifest) (manifest : Manifest) : Prop where
  name : manifest.name = trimmed raw.name
  version : manifest.version = trimmed raw.version
  displayName : manifest.displayName = nonempty raw.displayName
  description : manifest.description = nonempty raw.description
  publisher : manifest.publisher = nonempty raw.publisher
  platforms : manifest.platforms = raw.platforms
  minNodeVersion : manifest.minNodeVersion = nonempty raw.minNodeVersion
  timeoutMs : manifest.timeoutMs = raw.runtime.limits.timeoutMs
  memoryMb : manifest.memoryMb = raw.runtime.limits.memoryMb
  capabilities : List.Forall₂ (fun cap cap' => normalizeCapability cap = .ok cap') raw.capabilities
    manifest.capabilities

structure Accepted (raw : RawManifest) : Prop where
  schema : raw.schemaVersion = 1
  kind : raw.runtime.kind = "wasm"
  abi : raw.runtime.abi = Package.abi
  named : trimmed raw.name ≠ "" ∧ trimmed raw.version ≠ ""

theorem normalize_iff {raw : RawManifest} {manifest : Manifest} :
    normalize raw = .ok manifest ↔ Accepted raw ∧ Normalizes raw manifest := by
  unfold normalize
  simp only [Check.throw_bind, Check.ite_throw_eq_ok, Check.bind_eq_ok, Check.pure_eq_ok,
    Check.mapM_eq_ok, not_not, not_or]
  constructor
  · rintro ⟨hschema, hkind, habi, hnamed, capabilities, hcapabilities, rfl⟩
    exact ⟨⟨hschema, hkind, habi, hnamed⟩, ⟨rfl, rfl, rfl, rfl, rfl, rfl, rfl, rfl, rfl, hcapabilities⟩⟩
  · rintro ⟨haccepted, h⟩
    refine ⟨haccepted.schema, haccepted.kind, haccepted.abi, haccepted.named, manifest.capabilities,
      h.capabilities, ?_⟩
    obtain ⟨name, version, displayName, description, publisher, platforms, minNodeVersion, timeoutMs,
      memoryMb, capabilities⟩ := manifest
    obtain ⟨hname, hversion, hdisplay, hdescription, hpublisher, hplatforms, hmin, htimeout, hmemory,
      -⟩ := h
    dsimp only at hname hversion hdisplay hdescription hpublisher hplatforms hmin htimeout hmemory
    rw [hname, hversion, hdisplay, hdescription, hpublisher, hplatforms, hmin, htimeout, hmemory]

theorem Normalizes.normal {raw : RawManifest} {manifest : Manifest} (haccepted : Accepted raw)
    (h : Normalizes raw manifest) : manifest.Normal where
  name := by
    rw [h.name]
    exact ⟨trimmed_trimmed _, haccepted.named.1⟩
  version := by
    rw [h.version]
    exact ⟨trimmed_trimmed _, haccepted.named.2⟩
  displayName := by rw [h.displayName, nonempty_nonempty]
  description := by rw [h.description, nonempty_nonempty]
  publisher := by rw [h.publisher, nonempty_nonempty]
  minNodeVersion := by rw [h.minNodeVersion, nonempty_nonempty]
  capabilities cap hcap := by
    obtain ⟨raw, -, hraw⟩ := Check.exists_of_mem_right h.capabilities hcap
    exact (normalizeCapability_iff.mp hraw).2.2

/-- What is written is normalized to the same manifest if every scope is trimmed. -/
theorem normalize_rawOf {manifest : Manifest} (h : manifest.Normal)
    (hnames : ∀ cap ∈ manifest.capabilities, trimmed cap.name = cap.name) :
    normalize (rawOf manifest) = .ok manifest ↔
      ∀ cap ∈ manifest.capabilities, ∀ scope ∈ cap.scope, trimmed scope = scope := by
  have haccepted : Accepted (rawOf manifest) := by
    refine ⟨rfl, rfl, rfl, ?_, ?_⟩
    · show trimmed manifest.name ≠ ""
      rw [h.name.1]
      exact h.name.2
    · show trimmed manifest.version ≠ ""
      rw [h.version.1]
      exact h.version.2
  have hcaps : List.Forall₂ (fun cap cap' => normalizeCapability cap = .ok cap')
      (rawOf manifest).capabilities manifest.capabilities ↔
        ∀ cap ∈ manifest.capabilities, ∀ scope ∈ cap.scope, trimmed scope = scope := by
    rw [rawOf, List.forall₂_map_left_iff, List.forall₂_same]
    exact forall₂_congr fun cap hcap => normalizeCapability_raw (h.capabilities cap hcap) (hnames cap hcap)
  rw [normalize_iff, ← hcaps, and_iff_right haccepted]
  constructor
  · exact fun hsame => hsame.capabilities
  · intro hsame
    exact ⟨h.name.1.symm, h.version.1.symm, h.displayName.symm, h.description.symm, h.publisher.symm,
      rfl, h.minNodeVersion.symm, rfl, rfl, hsame⟩

end Novbot.Pack
