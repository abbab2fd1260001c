import Novbot.Package.Unpacked
import Novbot.Skills.Uploads

/-!
# Accepted packages

What the node has made sure of when it accepts the bytes of a package: its files are those of an
archive within the limits, and the manifest in it lists every one of them but itself, with its
hash.  The check of the hashes would let a manifest list itself as well, under a hash that it
contains; none does that (`NoOwnHash`).
-/

namespace Novbot.Skills

open Novbot.Package Text

variable {formats : Formats}

/-- No manifest gives the hash of the document that it is in. -/
def NoOwnHash (formats : Formats) : Prop :=
  ∀ bytes text manifest, fromUtf8 bytes = some text →
    parseManifest formats (.ofList text) = .ok manifest →
    manifest.files.lookup "skill.toml" ≠ some (formats.sha256 bytes)

/-- What the node has checked when it accepts a package. -/
theorem loadPackageInner_ok {bytes : Bytes} {expected : Option (String × String)} {package : Package}
    (h : loadPackageInner formats bytes expected = .ok package) :
    unpack formats bytes = .ok package.files ∧
      verifyFileHashes formats package.files package.manifest.files = .ok () ∧
      package.files.contains "module.wasm" = true ∧
      checkExpected package.manifest expected = .ok () ∧
      ∃ document text, package.files.lookup "skill.toml" = some document ∧
        fromUtf8 document = some text ∧
        parseManifest formats (.ofList text) = .ok package.manifest := by
  unfold loadPackageInner at h
  simp only [Check.throw_bind, Check.ite_throw_eq_ok, Check.bind_eq_ok] at h
  obtain ⟨-, files, hunpack, h⟩ := h
  split at h
  · next document hdocument =>
    split at h
    · next text htext =>
      simp only [Check.ite_throw_eq_ok, Check.bind_eq_ok, Check.pure_eq_ok] at h
      obtain ⟨manifest, hmanifest, _, hexpected, -, _, hverify, hwasm, _, -, rfl⟩ := h
      exact ⟨hunpack, hverify, by simpa using hwasm, hexpected, document, text, hdocument, htext,
        hmanifest⟩
    · cases h
  · cases h

/-- The files of an accepted package are those of its archive, and its table of hashes is about
all of them but the manifest. -/
theorem accepted_unpacked (laws : NoOwnHash formats) {bytes : Bytes}
    {expected : Option (String × String)} {package : Package}
    (h : loadPackageInner formats bytes expected = .ok package) :
    ∃ entries, formats.archive bytes = .ok entries ∧ Unpacked unpackRules entries package.files ∧
      (∀ path, path ∈ package.manifest.files.keys ↔
        path ∈ package.files.keys ∧ path ≠ "skill.toml") ∧
      (∀ path hash, package.manifest.files.lookup path = some hash →
        ∃ data, package.files.lookup path = some data ∧ formats.sha256 data = hash) ∧
      ∃ document text, package.files.lookup "skill.toml" = some document ∧
        fromUtf8 document = some text ∧
        parseManifest formats (.ofList text) = .ok package.manifest := by
  obtain ⟨hunpack, hverify, -, -, document, text, hdocument, htext, hmanifest⟩ := loadPackageInner_ok h
  obtain ⟨entries, harchive, hunpacked⟩ := unpackWith_unpacked hunpack
  have hlisted : ∀ path hash, package.manifest.files.lookup path = some hash →
      ∃ data, package.files.lookup path = some data ∧ formats.sha256 data = hash :=
    fun path hash hpath => verifyHashes_listed hverify hpath
  have hself : package.manifest.files.contains "skill.toml" = false := by
    rw [SortedMap.contains, Option.isSome_eq_false_iff, Option.isNone_iff_eq_none]
    cases hown : package.manifest.files.lookup "skill.toml" with
    | none => rfl
    | some hash =>
      obtain ⟨data, hdata, hsha⟩ := hlisted _ _ hown
      rw [hdocument] at hdata
      cases hdata
      rw [← hsha] at hown
      exact absurd hown (laws document text _ htext hmanifest)
  exact ⟨entries, harchive, hunpacked, verifyHashes_keys hverify hself, hlisted, document, text,
    hdocument, htext, hmanifest⟩

theorem widerFormats_noOwnHash : NoOwnHash widerFormats := by
  intro bytes text manifest _ hparse hown
  have hname : (parseManifest widerFormats "").toOption.map
      (fun manifest => manifest.files.lookup "skill.toml") = some none := by decide +kernel
  have hsame : parseManifest widerFormats "" = .ok manifest := hparse
  rw [hsame] at hname
  have hnone : manifest.files.lookup "skill.toml" = none := Option.some.inj hname
  rw [hown] at hnone
  cases hnone

theorem accepted_unpacked_wider :
    ∃ package, openPackage widerFormats widerPackage "uptime" "1.0.0" = .ok package ∧
      ∃ entries, widerFormats.archive widerPackage = .ok entries ∧
        Unpacked unpackRules entries package.files ∧
        (∀ path, path ∈ package.manifest.files.keys ↔
          path ∈ package.files.keys ∧ path ≠ "skill.toml") ∧
        (∀ path hash, package.manifest.files.lookup path = some hash →
          ∃ data, package.files.lookup path = some data ∧ widerFormats.sha256 data = hash) ∧
        ∃ document text, package.files.lookup "skill.toml" = some document ∧
          fromUtf8 document = some text ∧
          parseManifest widerFormats (.ofList text) = .ok package.manifest := by
  have hok : (openPackage widerFormats widerPackage "uptime" "1.0.0").isOk = true := by
    decide +kernel
  cases h : openPackage widerFormats widerPackage "uptime" "1.0.0" with
  | error err =>
    rw [h] at hok
    cases hok
  | ok package => exact ⟨package, rfl, accepted_unpacked widerFormats_noOwnHash h⟩

end Novbot.Skills
