import Novbot.Package.Agree
import Novbot.Lib.Utf8

/-!
# What is unpacked

An archive that a reader unpacks has no entry but files and directories, and no more than the
limit.  Its files are at relative paths without `.` and `..`, each at a path of its own, and
their bytes are within the limit (`unpackWith_unpacked`).  With the hashes of a manifest that
does not list itself, the files and the table match one for one (`verifyHashes_keys`).
-/

namespace Novbot.Package

open Text

variable {ε : Type} {fail : String → ε}

/-! ## Paths -/

/-- A relative path whose components are all names. -/
structure Clean (path : String) : Prop where
  relative : path.toList.head? ≠ some '/'
  parts : ∀ part ∈ split '/' path.toList, part ≠ [] ∧ part ≠ ['.'] ∧ part ≠ ['.', '.']

theorem not_mem_of_mem_splitOnP {p : UInt8 → Bool} {bytes part : Bytes}
    (h : part ∈ bytes.splitOnP p) : ∀ b ∈ part, p b = false := by
  induction bytes generalizing part with
  | nil =>
    rw [List.splitOnP_nil, List.mem_singleton] at h
    rw [h]
    exact fun b hb => absurd hb List.not_mem_nil
  | cons byte bytes ih =>
    rw [List.splitOnP_cons_eq_if_modifyHead] at h
    split at h
    · rcases List.mem_cons.mp h with rfl | h
      · exact fun b hb => absurd hb List.not_mem_nil
      · exact ih h
    · next hbyte =>
      obtain ⟨first, parts, hparts⟩ := List.exists_cons_of_ne_nil (List.splitOnP_ne_nil p bytes)
      rw [hparts] at h ih
      rcases List.mem_cons.mp h with rfl | h
      · intro b hb
        rcases List.mem_cons.mp hb with rfl | hb
        · exact Bool.eq_false_iff.mpr hbyte
        · exact ih List.mem_cons_self b hb
      · exact ih (.tail _ h)

/-- A component is read as a name. -/
theorem normalPart_name {part : Bytes} {text : List Char} (h : normalPart fail part = .ok text)
    (hne : part ≠ []) (hdot : part ≠ [0x2E]) (hslash : ∀ b ∈ part, isSlash b = false) :
    text ≠ [] ∧ text ≠ ['.'] ∧ text ≠ ['.', '.'] ∧ '/' ∉ text := by
  obtain ⟨hdots, hread, -⟩ := normalPart_ok.mp h
  have hbytes := utf8_of_fromUtf8 hread
  refine ⟨?_, ?_, ?_, ?_⟩
  · rintro rfl
    exact hne hbytes.symm
  · rintro rfl
    exact hdot hbytes.symm
  · rintro rfl
    exact hdots hbytes.symm
  · intro hmem
    have hbyte : (0x2F : UInt8) ∈ part := by
      rw [← hbytes]
      exact List.mem_flatMap.mpr ⟨'/', hmem, by decide⟩
    exact absurd (hslash _ hbyte) (by decide)

theorem normalizeRel_clean {path : Bytes} {text : String} (h : normalizeRel fail path = .ok text) :
    Clean text := by
  unfold normalizeRel at h
  simp only [Check.throw_bind, Check.ite_throw_eq_ok, Check.bind_eq_ok, Check.pure_eq_ok] at h
  obtain ⟨-, parts, hparts, hne, rfl⟩ := h
  have hnames : ∀ part ∈ parts, part ≠ [] ∧ part ≠ ['.'] ∧ part ≠ ['.', '.'] ∧ '/' ∉ part := by
    intro part hpart
    obtain ⟨bytes, hbytes, hread⟩ := Check.exists_of_mem_right (Check.mapM_eq_ok.mp hparts) hpart
    obtain ⟨hmem, hnormal⟩ := List.mem_filter.mp hbytes
    obtain ⟨hempty, hdot⟩ := of_decide_eq_true hnormal
    exact normalPart_name hread hempty hdot (not_mem_of_mem_splitOnP hmem)
  have hsplit : split '/' (String.ofList (List.intercalate ['/'] parts)).toList = parts := by
    rw [String.toList_ofList]
    exact split_intercalate (fun hnil => hne (by rw [hnil]; rfl)) fun part hpart =>
      (hnames part hpart).2.2.2
  have hall : ∀ part ∈ split '/' (String.ofList (List.intercalate ['/'] parts)).toList,
      part ≠ [] ∧ part ≠ ['.'] ∧ part ≠ ['.', '.'] := by
    intro part hpart
    rw [hsplit] at hpart
    obtain ⟨hempty, hdot, hdots, -⟩ := hnames part hpart
    exact ⟨hempty, hdot, hdots⟩
  refine ⟨fun hhead => ?_, hall⟩
  -- in front of a leading separator there is an empty part
  obtain ⟨rest, hrest⟩ := List.head?_eq_some_iff.mp hhead
  rw [hrest] at hall
  exact (hall [] (by rw [split, if_pos rfl]; exact List.mem_cons_self)).1 rfl

/-! ## Entries -/

section

variable (rules : UnpackRules ε)

def UnpackRules.isFile : Except String Entry → Bool
  | .ok entry => rules.plain entry.kind
  | .error _ => false

/-- The path and the bytes that an entry is unpacked to. -/
def UnpacksTo (entry : Except String Entry) (file : String × Bytes) : Prop :=
  ∃ found raw, entry = .ok found ∧ found.path = .ok raw ∧ normalizeRel rules.fail raw = .ok file.1 ∧
    found.data = .ok file.2

/-- Files and directories only. -/
def Ordinary (entries : List (Except String Entry)) : Prop :=
  ∀ entry ∈ entries, ∃ found, entry = .ok found ∧
    (rules.plain found.kind = true ∨ found.kind = .directory)

def size (files : List (String × Bytes)) : Nat := (files.map fun file => file.2.length).sum

/-- The files of an archive, each at a path of its own and within the limits. -/
structure Unpacked (entries : List (Except String Entry)) (files : SortedMap String Bytes) : Prop where
  ordinary : Ordinary rules entries
  count : entries.length ≤ entryMax
  listed : ∃ listed, List.Forall₂ (UnpacksTo rules) (entries.filter rules.isFile) listed ∧
    (listed.map Prod.fst).Nodup ∧ listed.Perm files.entries
  bytes : size files.entries ≤ extractMax
  clean : ∀ path ∈ files.keys, Clean path

end

variable {rules : UnpackRules ε}

theorem size_perm {files files' : List (String × Bytes)} (h : files.Perm files') :
    size files = size files' := (h.map _).sum_nat

theorem isDirectory_eq_true {kind : EntryType} (h : rules.isDirectory kind = .ok true) :
    rules.plain kind = false ∧ kind = .directory := by
  unfold UnpackRules.isDirectory at h
  split at h
  · cases h
  · next hplain =>
    cases kind with
    | directory => exact ⟨Bool.eq_false_iff.mpr hplain, rfl⟩
    | _ => cases h

theorem isDirectory_eq_false {kind : EntryType} (h : rules.isDirectory kind = .ok false) :
    rules.plain kind = true := by
  unfold UnpackRules.isDirectory at h
  split at h
  · next hplain => exact hplain
  · cases kind <;> cases h

/-- What the loop adds to the files that it has. -/
theorem unpackEntries_adds {entries : List (Except String Entry)} {count total : Nat}
    {files out : SortedMap String Bytes} (hcount : count ≤ entryMax) (htotal : total ≤ extractMax)
    (h : unpackEntries rules entries count total files = .ok out) :
    Ordinary rules entries ∧ count + entries.length ≤ entryMax ∧ ∃ added,
      List.Forall₂ (UnpacksTo rules) (entries.filter rules.isFile) added ∧
      (added ++ files.entries).Perm out.entries ∧ total + size added ≤ extractMax := by
  induction entries generalizing count total files with
  | nil =>
    cases h
    exact ⟨fun entry hentry => absurd hentry List.not_mem_nil, hcount, [], .nil, .refl _, htotal⟩
  | cons entry entries ih =>
    unfold unpackEntries at h
    simp only [Check.throw_bind, Check.ite_throw_eq_ok, Check.bind_eq_ok, Check.mapError_eq_ok] at h
    obtain ⟨found, hfound, hmax, directory, hkind, raw, hraw, path, hpath, h⟩ := h
    subst hfound
    cases directory with
    | true =>
      simp only [if_true, Check.bind_eq_ok] at h
      obtain ⟨_, -, h⟩ := h
      obtain ⟨hplain, hdirectory⟩ := isDirectory_eq_true hkind
      obtain ⟨hordinary, hlength, added, hadded, hperm, hsize⟩ := ih (by omega) htotal h
      refine ⟨List.forall_mem_cons.mpr ⟨⟨found, rfl, .inr hdirectory⟩, hordinary⟩, ?_, added, ?_,
        hperm, hsize⟩
      · rw [List.length_cons]
        omega
      · rw [List.filter_cons_of_neg (by rw [UnpackRules.isFile, hplain]; exact Bool.false_ne_true)]
        exact hadded
    | false =>
      simp only [Bool.false_eq_true, if_false, Check.ite_throw_eq_ok, Check.bind_eq_ok,
        Check.mapError_eq_ok] at h
      obtain ⟨_, -, declared, -, -, -, data, hdata, -, hwithin, hnew, h⟩ := h
      have hplain := isDirectory_eq_false hkind
      obtain ⟨hordinary, hlength, added, hadded, hperm, hsize⟩ := ih (by omega) (by omega) h
      refine ⟨List.forall_mem_cons.mpr ⟨⟨found, rfl, .inl hplain⟩, hordinary⟩, ?_,
        (path, data) :: added, ?_, ?_, ?_⟩
      · rw [List.length_cons]
        omega
      · rw [List.filter_cons_of_pos (by exact hplain)]
        exact .cons ⟨found, raw, rfl, hraw, hpath, hdata⟩ hadded
      · have hinsert := SortedMap.perm_insert data (Bool.eq_false_iff.mpr hnew)
        exact (List.perm_middle.symm.trans (hinsert.symm.append_left added)).trans hperm
      · rw [size, List.map_cons, List.sum_cons, ← Nat.add_assoc]
        exact hsize

theorem unpackWith_unpacked {formats : Formats} {bytes : Bytes} {files : SortedMap String Bytes}
    (h : unpackWith rules formats bytes = .ok files) :
    ∃ entries, formats.archive bytes = .ok entries ∧ Unpacked rules entries files := by
  unfold unpackWith at h
  simp only [Check.bind_eq_ok, Check.mapError_eq_ok] at h
  obtain ⟨entries, harchive, h⟩ := h
  obtain ⟨hordinary, hcount, added, hadded, hperm, hsize⟩ :=
    unpackEntries_adds (Nat.zero_le _) (Nat.zero_le _) h
  rw [SortedMap.empty, List.append_nil] at hperm
  refine ⟨entries, harchive, hordinary, by omega, ⟨added, hadded, ?_, hperm⟩, ?_, ?_⟩
  · exact (hperm.map Prod.fst).nodup_iff.mpr files.nodup_keys
  · rw [← size_perm hperm]
    omega
  · intro path hpath
    obtain ⟨file, hfile, rfl⟩ := List.mem_map.mp hpath
    obtain ⟨entry, -, found, raw, -, -, hnormal, -⟩ :=
      Check.exists_of_mem_right hadded (hperm.mem_iff.mpr hfile)
    exact normalizeRel_clean hnormal

/-! ## The table of hashes -/

/-- A table that does not list the manifest lists each other file, and nothing else. -/
theorem verifyHashes_keys {sha256 : Bytes → String} {archiveError manifestError : String → ε}
    {files : SortedMap String Bytes} {declared : SortedMap String String}
    (h : verifyHashes sha256 archiveError manifestError files declared = .ok ())
    (hmanifest : declared.contains "skill.toml" = false) (path : String) :
    path ∈ declared.keys ↔ path ∈ files.keys ∧ path ≠ "skill.toml" := by
  obtain ⟨hall, hrest⟩ := verifyHashes_ok.mp h
  constructor
  · intro hpath
    obtain ⟨binding, hbinding, rfl⟩ := List.mem_map.mp hpath
    obtain ⟨-, data, hdata, -⟩ := hall binding hbinding
    refine ⟨SortedMap.mem_keys.mpr (Option.isSome_iff_exists.mpr ⟨data, hdata⟩), fun hname => ?_⟩
    rw [hname] at hpath
    rw [SortedMap.mem_keys.mp hpath] at hmanifest
    cases hmanifest
  · rintro ⟨hpath, hname⟩
    have hlisted := List.filter_eq_nil_iff.mp hrest path hpath
    simp only [hname, ne_eq, not_false_eq_true, decide_true, Bool.true_and, Bool.not_eq_true',
      Bool.not_eq_false] at hlisted
    exact SortedMap.mem_keys.mpr hlisted

theorem verifyHashes_listed {sha256 : Bytes → String} {archiveError manifestError : String → ε}
    {files : SortedMap String Bytes} {declared : SortedMap String String}
    (h : verifyHashes sha256 archiveError manifestError files declared = .ok ()) {path hash : String}
    (hlisted : declared.lookup path = some hash) :
    ∃ data, files.lookup path = some data ∧ sha256 data = hash :=
  ((verifyHashes_ok.mp h).1 _ (SortedMap.lookup_eq_some_iff.mp hlisted)).2

end Novbot.Package
