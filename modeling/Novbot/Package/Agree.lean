import Novbot.Package.Archive
import Novbot.Lib.Check

/-!
# Two readers of one format

Success does not depend on how a reader reports errors: paths, hashes and the
limits of an archive are the same for every reader.  A reader whose rules allow
more unpacks what a stricter one does, to the same files (`unpackWith_mono`).
-/

namespace Novbot.Package

variable {ε ε' : Type} {fail : String → ε} {fail' : String → ε'}

/-! ## Paths -/

theorem normalPart_ok {part : Bytes} {text : List Char} :
    normalPart fail part = .ok text ↔ part ≠ [0x2E, 0x2E] ∧ Text.fromUtf8 part = some text ∧
      text.contains '\\' = false ∧ text.contains '\x00' = false := by
  unfold normalPart
  by_cases hdots : part = [0x2E, 0x2E]
  · simp [hdots]
  · rw [if_neg hdots]
    cases Text.fromUtf8 part with
    | none => simp
    | some found =>
      show (if (found.contains '\\' || found.contains '\x00') = true then _ else _) = _ ↔ _
      split
      · next hbad =>
        rw [Bool.or_eq_true] at hbad
        constructor
        · intro h
          cases h
        · rintro ⟨-, heq, hback, hnul⟩
          cases heq
          rw [hback, hnul] at hbad
          simp at hbad
      · next hgood =>
        rw [Bool.or_eq_true, not_or, Bool.not_eq_true, Bool.not_eq_true] at hgood
        constructor
        · intro h
          cases h
          exact ⟨hdots, rfl, hgood⟩
        · rintro ⟨-, heq, -⟩
          cases heq
          rfl

theorem mapM_normalPart {parts : List Bytes} {texts : List (List Char)} :
    parts.mapM (normalPart fail) = .ok texts ↔ parts.mapM (normalPart fail') = .ok texts := by
  simp only [Check.mapM_eq_ok, normalPart_ok]

/-- Readers agree on the paths they accept and on what becomes of them. -/
theorem normalizeRel_congr {path : Bytes} {text : String} :
    normalizeRel fail path = .ok text ↔ normalizeRel fail' path = .ok text := by
  unfold normalizeRel
  simp only [Check.throw_bind, Check.ite_throw_eq_ok, Check.bind_eq_ok, Check.pure_eq_ok,
    @mapM_normalPart _ _ fail fail']

/-! ## Unpacking -/

/-- The second reader allows what the first does. -/
structure UnpackRules.Allows (rules' : UnpackRules ε') (rules : UnpackRules ε) : Prop where
  plain : ∀ kind, rules.plain kind = true → rules'.plain kind = true
  directory : rules'.plain .directory = false
  checkDirectory : ∀ path, rules.checkDirectory path = .ok () → rules'.checkDirectory path = .ok ()
  checkFile : ∀ path, rules.checkFile path = .ok () → rules'.checkFile path = .ok ()

variable {rules : UnpackRules ε} {rules' : UnpackRules ε'}

theorem UnpackRules.Allows.isDirectory (h : rules'.Allows rules) {kind : EntryType} {b : Bool}
    (hkind : rules.isDirectory kind = .ok b) : rules'.isDirectory kind = .ok b := by
  unfold UnpackRules.isDirectory at hkind ⊢
  split at hkind
  · next hplain =>
    cases hkind
    rw [if_pos (h.plain kind hplain)]
  · cases kind with
    | directory =>
      cases hkind
      rw [if_neg (by rw [h.directory]; exact Bool.false_ne_true)]
    | _ => cases hkind

theorem unpackEntries_mono (h : rules'.Allows rules) {entries : List (Except String Entry)}
    {count total : Nat} {files out : SortedMap String Bytes}
    (hok : unpackEntries rules entries count total files = .ok out) :
    unpackEntries rules' entries count total files = .ok out := by
  induction entries generalizing count total files with
  | nil =>
    cases hok
    rfl
  | cons entry entries ih =>
    unfold unpackEntries at hok ⊢
    simp only [Check.throw_bind, Check.ite_throw_eq_ok, Check.bind_eq_ok, Check.mapError_eq_ok] at hok ⊢
    obtain ⟨entry, hentry, hcount, directory, hkind, raw, hraw, path, hpath, hrest⟩ := hok
    refine ⟨entry, hentry, hcount, directory, h.isDirectory hkind, raw, hraw, path,
      normalizeRel_congr.mp hpath, ?_⟩
    cases directory with
    | true =>
      simp only [if_true, Check.bind_eq_ok] at hrest ⊢
      obtain ⟨_, hdir, hrest⟩ := hrest
      exact ⟨(), h.checkDirectory path hdir, ih hrest⟩
    | false =>
      simp only [Bool.false_eq_true, if_false, Check.ite_throw_eq_ok, Check.bind_eq_ok,
        Check.mapError_eq_ok] at hrest ⊢
      obtain ⟨_, hfile, declared, hdeclared, hwasm, hmax, data, hdata, hlen, htotal, hnew,
        hrest⟩ := hrest
      exact ⟨(), h.checkFile path hfile, declared, hdeclared, hwasm, hmax, data, hdata, hlen,
        htotal, hnew, ih hrest⟩

theorem unpackWith_mono (h : rules'.Allows rules) {formats : Formats} {bytes : Bytes}
    {out : SortedMap String Bytes} (hok : unpackWith rules formats bytes = .ok out) :
    unpackWith rules' formats bytes = .ok out := by
  unfold unpackWith at hok ⊢
  simp only [Check.bind_eq_ok, Check.mapError_eq_ok] at hok ⊢
  obtain ⟨entries, harchive, hrest⟩ := hok
  exact ⟨entries, harchive, unpackEntries_mono h hrest⟩

/-! ## File hashes -/

theorem verifyHash_ok {sha256 : Bytes → String} {manifestFail : String → ε}
    {files : SortedMap String Bytes} {path hash : String} :
    verifyHash sha256 fail manifestFail files path hash = .ok () ↔ isLowerHex64 hash = true ∧
      ∃ data, files.lookup path = some data ∧ sha256 data = hash := by
  unfold verifyHash
  by_cases hhex : isLowerHex64 hash = true
  · rw [if_neg (by simp [hhex])]
    cases files.lookup path with
    | none => simp
    | some data =>
      by_cases hsha : sha256 data = hash
      · simp [hsha, hhex]
      · simp [hsha]
  · simp [hhex]

/-- Every declared file is there with its hash, and no other file but the manifest. -/
theorem verifyHashes_ok {sha256 : Bytes → String} {manifestFail : String → ε}
    {files : SortedMap String Bytes} {declared : SortedMap String String} :
    verifyHashes sha256 fail manifestFail files declared = .ok () ↔
      (∀ binding ∈ declared.entries, isLowerHex64 binding.2 = true ∧
        ∃ data, files.lookup binding.1 = some data ∧ sha256 data = binding.2) ∧
      (files.keys.filter fun path => path ≠ "skill.toml" && !declared.contains path) = [] := by
  unfold verifyHashes
  simp only [Check.bind_eq_ok]
  constructor
  · rintro ⟨_, hall, hrest⟩
    refine ⟨fun binding hmem => verifyHash_ok.mp (Check.forM_eq_ok.mp hall binding hmem), ?_⟩
    by_contra hne
    rw [if_pos hne] at hrest
    cases hrest
  · rintro ⟨hall, hrest⟩
    refine ⟨(), Check.forM_eq_ok.mpr fun binding hmem => verifyHash_ok.mpr (hall binding hmem), ?_⟩
    rw [if_neg (by simpa using hrest)]
    rfl

/-- A reader that normalizes more paths declares what another one does. -/
theorem declaredFiles_mono {normalize : String → Except ε String}
    {normalize' : String → Except ε' String} {duplicate : String → ε} {duplicate' : String → ε'}
    (h : ∀ path text, normalize path = .ok text → normalize' path = .ok text)
    {files declared : SortedMap String String}
    (hok : declaredFiles normalize duplicate files = .ok declared) :
    declaredFiles normalize' duplicate' files = .ok declared := by
  unfold declaredFiles at hok ⊢
  generalize (SortedMap.empty : SortedMap String String) = start at hok ⊢
  generalize files.entries = bindings at hok ⊢
  induction bindings generalizing start with
  | nil =>
    cases hok
    rfl
  | cons binding rest ih =>
    simp only [Check.throw_bind] at hok ih ⊢
    simp only [List.foldlM_cons, Check.bind_eq_ok, Check.ite_throw_eq_ok, Check.pure_eq_ok] at hok ⊢
    obtain ⟨next, ⟨path, hpath, hnew, hnext⟩, hrest⟩ := hok
    exact ⟨next, ⟨path, h _ _ hpath, hnew, hnext⟩, ih next hrest⟩

end Novbot.Package
