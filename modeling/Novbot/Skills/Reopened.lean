import Novbot.Skills.Clamped

/-!
# Interrupted openings

Opening a host puts aside the store directories of `state.json` that do not verify, one
by one, and writes `state.json` without their skills in the end.  A process that stops
anywhere in between leaves files from which opening comes to the same: what was put
aside is missing, and a missing directory does not verify either (`reopened_same`).
-/

namespace Novbot.Skills

open Novbot.Package Text

variable {formats : Formats} {stamp : String} {writeFails : Option String} {disk disk' : Disk}

/-! ## What a part of an opening does to the store -/

/-- The directories of these entries that do not verify are gone, and nothing else is. -/
structure Swept (formats : Formats) (entries : List (String × DiskSkill))
    (start store : SortedMap String Directory) : Prop where
  gone : ∀ entry ∈ entries, verifyActive formats start entry.2.sha256 ≠ .ok () →
    store.lookup entry.2.sha256 = none
  kept : ∀ sha256, store.lookup sha256 = start.lookup sha256 ∨
    store.lookup sha256 = none ∧ verifyActive formats start sha256 ≠ .ok () ∧
      ∃ entry ∈ entries, entry.2.sha256 = sha256

section

variable {start mid store store' : SortedMap String Directory}
  {entries entries' : List (String × DiskSkill)}

theorem Swept.remains (h : Swept formats entries start store) : Remains formats start store := by
  intro sha256
  rcases h.kept sha256 with hsame | ⟨hgone, hfails, -⟩
  · exact .inl hsame
  · exact .inr ⟨hgone, hfails⟩

theorem Swept.nil (store : SortedMap String Directory) : Swept formats [] store store :=
  ⟨fun _ hentry => absurd hentry List.not_mem_nil, fun _ => .inl rfl⟩

/-- One sweep after another. -/
theorem Swept.append (h : Swept formats entries start mid) (h' : Swept formats entries' mid store) :
    Swept formats (entries ++ entries') start store := by
  constructor
  · intro entry hentry hfails
    rcases List.mem_append.mp hentry with hentry | hentry
    · have hgone := h.gone entry hentry hfails
      rcases h'.kept entry.2.sha256 with hsame | ⟨hnone, -⟩
      · exact hsame.trans hgone
      · exact hnone
    · exact h'.gone entry hentry fun hok => hfails ((h.remains.verifyActive_iff _).mp hok)
  · intro sha256
    rcases h'.kept sha256 with hsame | ⟨hnone, hfails, entry, hentry, hsha⟩
    · rw [hsame]
      rcases h.kept sha256 with hbefore | ⟨hgone, hfails, entry, hentry, hsha⟩
      · exact .inl hbefore
      · exact .inr ⟨hgone, hfails, entry, List.mem_append_left _ hentry, hsha⟩
    · refine .inr ⟨hnone, fun hok => hfails ((h.remains.verifyActive_iff _).mpr hok), entry, ?_, hsha⟩
      exact List.mem_append_right _ hentry

/-- A sweep is determined by its entries, in any order. -/
theorem Swept.unique (h : Swept formats entries start store) (h' : Swept formats entries' start store')
    (hsame : ∀ entry, entry ∈ entries ↔ entry ∈ entries') : store = store' := by
  refine SortedMap.ext_lookup fun sha256 => ?_
  rcases h.kept sha256 with hstore | ⟨hgone, hfails, entry, hentry, rfl⟩
  · rcases h'.kept sha256 with hstore' | ⟨hgone', hfails, entry, hentry, rfl⟩
    · rw [hstore, hstore']
    · rw [hgone', h.gone entry ((hsame entry).mpr hentry) hfails]
  · rw [hgone, h'.gone entry ((hsame entry).mp hentry) hfails]

theorem openSkill_swept {opening opening' : Opening} {name : String} {skill : DiskSkill}
    (h : openSkill formats stamp opening name skill = .ok opening') :
    opening'.disk.state = opening.disk.state ∧
      Swept formats [(name, skill)] opening.disk.store opening'.disk.store := by
  unfold openSkill at h
  split at h
  · next hok =>
    cases h
    refine ⟨rfl, fun entry hentry hfails => ?_, fun _ => .inl rfl⟩
    cases List.mem_singleton.mp hentry
    exact absurd hok hfails
  · next err herr =>
    have hfails : verifyActive formats opening.disk.store skill.sha256 ≠ .ok () := by
      rw [herr]
      exact fun heq => by cases heq
    obtain ⟨after, hquarantine, hpure⟩ := Check.bind_eq_ok.mp h
    cases hpure
    simp only [quarantineStore] at hquarantine
    split at hquarantine
    · next hnone =>
      cases hquarantine
      refine ⟨rfl, fun entry hentry _ => ?_, fun _ => .inl rfl⟩
      cases List.mem_singleton.mp hentry
      exact hnone
    · next dir hdir =>
      have hmoved : after.state = opening.disk.state ∧
          after.store = opening.disk.store.filter fun path _ => path ≠ skill.sha256 := by
        split at hquarantine
        · split at hquarantine
          · cases hquarantine
          · cases hquarantine
            exact ⟨rfl, rfl⟩
        · cases hquarantine
          exact ⟨rfl, rfl⟩
      obtain ⟨hstate, hstore⟩ := hmoved
      refine ⟨hstate, fun entry hentry _ => ?_, fun sha256 => ?_⟩
      · cases List.mem_singleton.mp hentry
        simp [hstore, SortedMap.lookup_filter]
      · by_cases hsha : sha256 = skill.sha256
        · subst hsha
          refine .inr ⟨?_, hfails, _, List.mem_cons_self, rfl⟩
          simp [hstore, SortedMap.lookup_filter]
        · left
          rw [hstore, SortedMap.lookup_filter]
          cases opening.disk.store.lookup sha256 with
          | none => rfl
          | some dir => exact if_pos (by simpa using hsha)

theorem openSkills_swept {opening opening' : Opening}
    (h : entries.foldlM (fun opening (name, skill) => openSkill formats stamp opening name skill)
      opening = .ok opening') :
    opening'.disk.state = opening.disk.state ∧
      Swept formats entries opening.disk.store opening'.disk.store := by
  induction entries generalizing opening with
  | nil =>
    cases h
    exact ⟨rfl, .nil _⟩
  | cons entry entries ih =>
    obtain ⟨name, skill⟩ := entry
    rw [List.foldlM_cons] at h
    obtain ⟨mid, hmid, hrest⟩ := Check.bind_eq_ok.mp h
    obtain ⟨hstate, hswept⟩ := openSkill_swept hmid
    obtain ⟨hstate', hswept'⟩ := ih hrest
    exact ⟨hstate'.trans hstate, hswept.append hswept'⟩

end

/-! ## Interruptions -/

/-- What openings that were interrupted leave.  Each has seen some of the skills of
`state.json`, and has not written it. -/
inductive Interrupted (formats : Formats) (disk : Disk) : Disk → Prop where
  | refl : Interrupted formats disk disk
  | again {disk' : Disk} (stamp : String) (seen unseen : List (String × DiskSkill)) (opening : Opening)
    (earlier : Interrupted formats disk disk')
    (entries : disk'.stated.skills.entries = seen ++ unseen)
    (opened : seen.foldlM (fun opening (name, skill) => openSkill formats stamp opening name skill)
      ⟨disk', []⟩ = .ok opening) : Interrupted formats disk opening.disk

theorem Interrupted.swept (h : Interrupted formats disk disk') :
    disk'.state = disk.state ∧ ∃ entries, entries ⊆ disk.stated.skills.entries ∧
      Swept formats entries disk.store disk'.store := by
  induction h with
  | refl => exact ⟨rfl, [], List.nil_subset _, .nil _⟩
  | @again disk' stamp seen unseen opening earlier hentries hopened ih =>
    obtain ⟨hstate, entries, hsub, hswept⟩ := ih
    obtain ⟨hstate', hswept'⟩ := openSkills_swept hopened
    refine ⟨hstate'.trans hstate, entries ++ seen, ?_, hswept.append hswept'⟩
    rw [Disk.stated, hstate, ← Disk.stated] at hentries
    exact List.append_subset.mpr ⟨hsub, hentries ▸ List.subset_append_left _ _⟩

/-! ## What an opening comes to -/

/-- The host and the files after an opening, as far as they depend on what verifies. -/
structure OpensTo (formats : Formats) (disk : Disk) (host : Host) : Prop where
  swept : Swept formats disk.stated.skills.entries disk.store host.disk.store
  failed : ∀ name, name ∈ host.inner.bootFailures.map (·.name) ↔
    ∃ skill, (name, skill) ∈ disk.stated.skills.entries ∧
      verifyActive formats disk.store skill.sha256 ≠ .ok ()
  /-- `state.json` is written when a skill failed. -/
  written : host.inner.bootFailures = [] ∧ host.disk = disk ∧
      host.inner = ⟨disk.stated.generation, disk.stated.generation,
        disk.stated.skills.map fun _ skill => openedSkill skill, none, [], defaultPolicy⟩ ∨
    host.inner.bootFailures ≠ [] ∧
      host.disk.state = some (openedState disk.stated host.inner.bootFailures) ∧
      host.inner = ⟨0, 0, (openedState disk.stated host.inner.bootFailures).skills.map
        fun _ skill => openedSkill skill, none, host.inner.bootFailures, defaultPolicy⟩

theorem openHost_opensTo {host : Host} (h : openHost formats stamp writeFails disk = .ok host) :
    OpensTo formats disk host := by
  rw [openHost, ← Disk.stated] at h
  dsimp only at h
  obtain ⟨opening, hopening, h⟩ := Check.bind_eq_ok.mp h
  obtain ⟨hstate, hswept⟩ := openSkills_swept hopening
  obtain ⟨-, hnames⟩ := openSkills_remains hopening (Swept.nil disk.store).remains
  have hfailed : ∀ name, name ∈ opening.failures.map (·.name) ↔
      ∃ skill, (name, skill) ∈ disk.stated.skills.entries ∧
        verifyActive formats disk.store skill.sha256 ≠ .ok () := by
    intro name
    rw [hnames]
    simp
  split at h
  · next hnone =>
    cases h
    rw [List.isEmpty_iff] at hnone
    have hintact : disk.Intact formats := by
      intro name skill hskill
      by_contra hfails
      have hmem := (hfailed name).mpr ⟨skill, SortedMap.lookup_eq_some_iff.mp hskill, hfails⟩
      rw [hnone] at hmem
      cases hmem
    have hsame := @openSkills_intact formats stamp disk.stated.skills.entries ⟨disk, []⟩
      fun entry hentry => hintact entry.1 entry.2 (SortedMap.lookup_eq_some_iff.mpr hentry)
    cases hsame.symm.trans hopening
    exact ⟨hswept, hfailed, .inl ⟨rfl, rfl, rfl⟩⟩
  · next hsome =>
    split at h
    · cases h
    · cases h
      rw [List.isEmpty_iff] at hsome
      exact ⟨hswept, hfailed, .inr ⟨hsome, rfl, rfl⟩⟩

section

variable {host host' : Host}

/-- An opened host finds its files intact. -/
theorem OpensTo.intact (h : OpensTo formats disk host) : host.disk.Intact formats := by
  intro name skill hskill
  rcases h.written with ⟨hnone, hdisk, -⟩ | ⟨-, hstate, -⟩
  · rw [hdisk] at hskill ⊢
    by_contra hfails
    have hmem := (h.failed name).mpr ⟨skill, SortedMap.lookup_eq_some_iff.mp hskill, hfails⟩
    rw [hnone] at hmem
    cases hmem
  · rw [Disk.stated, hstate, Option.getD_some, openedState, SortedMap.lookup_filter,
      Option.filter_eq_some_iff] at hskill
    obtain ⟨hstated, hkept⟩ := hskill
    refine (h.swept.remains.verifyActive_iff _).mpr ?_
    by_contra hfails
    have hmem := (h.failed name).mpr ⟨skill, SortedMap.lookup_eq_some_iff.mp hstated, hfails⟩
    simp only [Bool.not_eq_true', ← Bool.not_eq_true, List.contains_iff_mem] at hkept
    exact hkept hmem

/-- Opening once more changes nothing, and nothing fails. -/
theorem OpensTo.again (h : OpensTo formats disk host) (stamp : String) (writeFails : Option String) :
    openHost formats stamp writeFails host.disk =
      .ok ⟨{ host.inner with bootFailures := [] }, host.disk⟩ := by
  rw [openHost_intact h.intact]
  rcases h.written with ⟨hnone, hdisk, hinner⟩ | ⟨-, hstate, hinner⟩
  · rw [hinner, hdisk]
  · rw [Disk.stated, hstate, hinner]
    rfl

theorem openedState_congr {state : DiskState} {failures failures' : List ReportedSkill}
    (h : ∀ name, name ∈ failures.map (·.name) ↔ name ∈ failures'.map (·.name)) :
    openedState state failures = openedState state failures' := by
  have hcontains : ∀ name, (failures.map (·.name)).contains name =
      (failures'.map (·.name)).contains name := by
    intro name
    rw [Bool.eq_iff_iff, List.contains_iff_mem, List.contains_iff_mem]
    exact h name
  rw [openedState, openedState]
  congr 2
  funext name _
  rw [hcontains]

end

/-- The store directory of an active skill has lost its files. -/
def emptiedDisk : Disk := { Disk.empty with
  store := SortedMap.empty.insert uptimeSha256 .empty
  state := some ⟨1, SortedMap.empty.insert "uptime" ⟨uptimeSha256, "1.0.0", []⟩⟩ }

/-- An opening puts the directory aside and stops. -/
def sweptDisk : Disk := { emptiedDisk with
  store := .empty
  quarantine := SortedMap.empty.insert uptimeSha256 .empty }

def emptiedReport : ReportedSkill :=
  ⟨"uptime", "1.0.0", uptimeSha256, .failed, some .storeTampered, "verified marker is missing", 0, []⟩

def emptiedHost : Host :=
  ⟨⟨0, 0, .empty, none, [emptiedReport], defaultPolicy⟩, { sweptDisk with state := some ⟨0, .empty⟩ }⟩

end Novbot.Skills
