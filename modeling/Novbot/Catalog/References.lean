import Novbot.Catalog.Kept
import Mathlib.Data.List.Nodup

/-!
# Desired versions exist

A request that makes a version desired reads it before its transaction begins, and locks
neither the version nor its skill.  A deletion looks for users in the snapshot of its
transaction.  Each misses what the other commits after its own look, and
`node_skills_desired` has no foreign key.  The desired list of a node joins with the
versions, so a row that refers to none is left out of it.
-/

namespace Novbot.Catalog

open Concurrent Package

/-! ## The statement -/

structure SkillRef where
  name : String
  version : String
  sha256 : String
  sizeBytes : Nat
  capabilitiesSha256 : String
  deriving DecidableEq, Repr

/-- The skills of `build_desired`: the join of the rows of a node with the versions. -/
def buildDesired (state : Center) (nodeId : String) : List SkillRef :=
  (state.desired.tables.desired nodeId).entries.flatMap fun (name, row) =>
    (state.tables.versions.filter (·.holds name row.version)).map fun package =>
      ⟨name, row.version, row.sha256, package.sizeBytes, package.capabilitiesSha256⟩

structure Referenced (state : Center) : Prop where
  /-- A row refers to a version that exists, with its artifact. -/
  rows : ∀ nodeId name row, (state.desired.tables.desired nodeId).lookup name = some row →
    ∃ package ∈ state.tables.versions, package.name = name ∧ package.version = row.version ∧
      package.sha256 = row.sha256 ∧ (state.tables.artifacts row.sha256).isSome
  /-- The list of a node has one entry for each of its rows. -/
  lists : ∀ nodeId, (buildDesired state nodeId).map
      (fun ref => (ref.name, (⟨ref.version, ref.sha256⟩ : Desired.Row))) =
    (state.desired.tables.desired nodeId).entries

/-- A transaction that makes versions desired commits when none of them was deleted since
its request began, and a deletion when its version did not become desired since it looked
for users. -/
def undisturbed (sys : System) : Move Nat Bool Event → Prop
  | .act t _ =>
    (sys.about t (.desired .commit) →
      ∀ pin ∈ wantedBy (sys.shared.pending t), pin ∉ sys.shared.gone t) ∧
    ∀ writes, sys.about t (.commit writes) → ∀ pin ∈ deletedBy writes, pin ∉ sys.shared.taken t
  | .event _ => True

/-! ## What writes do -/

variable {setup : Setup} {formats : Formats} {tables tables' : Tables} {loc : Loc}
  {package : ParsedPackage} {writes : List Write}

/-- A version that is left out was deleted. -/
theorem mem_of_apply {write : Write} (h : write.apply tables = some tables')
    (hmem : package ∈ tables.versions) :
    package ∈ tables'.versions ∨ write = .deleteVersion package.name package.version := by
  cases write with
  | insertSkill _ | insertArtifact _ _ =>
    simp only [Write.apply] at h
    split at h
    · cases h
    · cases h
      exact .inl hmem
  | updateSkill _ | deleteArtifact _ =>
    cases h
    exact .inl hmem
  | insertVersion added =>
    obtain ⟨-, rfl⟩ := apply_insertVersion h
    exact .inl (List.mem_append_left _ hmem)
  | deleteVersion name version =>
    cases h
    by_cases hholds : package.holds name version = true
    · obtain ⟨rfl, rfl⟩ := ParsedPackage.holds_iff.mp hholds
      exact .inr rfl
    · exact .inl (List.mem_filter.mpr ⟨hmem, by simpa using hholds⟩)

theorem mem_of_applyAll (h : applyAll writes tables = some tables')
    (hmem : package ∈ tables.versions) :
    package ∈ tables'.versions ∨ (package.name, package.version) ∈ deletedBy writes := by
  induction writes generalizing tables with
  | nil =>
    cases h
    exact .inl hmem
  | cons write writes ih =>
    obtain ⟨mid, hwrite, hrest⟩ := applyAll_cons.mp h
    rcases mem_of_apply hwrite hmem with hmid | rfl
    · refine (ih hrest hmid).imp_right fun hdeleted => ?_
      obtain ⟨deletion, hin, heq⟩ := List.mem_filterMap.mp hdeleted
      exact List.mem_filterMap.mpr ⟨deletion, List.mem_cons_of_mem _ hin, heq⟩
    · exact .inr List.mem_cons_self

/-- A request deletes what it found no user of. -/
theorem Commits.checked (h : Commits formats loc writes) {pin : String × String}
    (hpin : pin ∈ deletedBy writes) : loc.checked = some pin := by
  have hstored : ∀ {sha256 : String} {data : Bytes} {stored : List Write},
      Stores formats loc sha256 data stored → deletedBy stored = [] := by
    intro sha256 data stored hstored
    cases hstored <;> rfl
  cases h with
  | create hup hseen hlocked hstores | update hup hseen hlocked hstores =>
    have hnone := hstored hstores
    unfold deletedBy at hpin hnone
    simp [hnone] at hpin
  | ensure hup hfound hstores =>
    rw [hstored hstores] at hpin
    cases hpin
  | @delete name version _ _ hrequest hseen hlocked hchecked hdropped =>
    have hsame : pin ∈ [(name, version)] := by
      rcases hdropped with rfl | ⟨rfl, -⟩
      · exact hpin
      · exact hpin
    rw [hchecked, List.mem_singleton.mp hsame]

theorem mem_wantedBy {desires : List Desired.NodeWrite} {write : Desired.NodeWrite}
    {row : Desired.Row} (hwrite : write ∈ desires) (haction : write.action = .upsert row) :
    (write.skillName, row.version) ∈ wantedBy desires :=
  List.mem_filterMap.mpr ⟨write, hwrite, by simp [haction]⟩

/-- A row that is there afterwards was written, or it was there before. -/
theorem lookup_applyAll {desires : List Desired.NodeWrite} {rows : Desired.Tables}
    {nodeId name : String} {row : Desired.Row}
    (h : ((Desired.applyAll desires rows).desired nodeId).lookup name = some row) :
    (∃ write ∈ desires, write.skillName = name ∧ write.action = .upsert row) ∨
      (rows.desired nodeId).lookup name = some row := by
  induction desires generalizing rows with
  | nil => exact .inr h
  | cons write desires ih =>
    rcases ih h with ⟨later, hlater, hwritten⟩ | hbefore
    · exact .inl ⟨later, List.mem_cons_of_mem _ hlater, hwritten⟩
    · simp only [Desired.NodeWrite.apply, Function.update_apply] at hbefore
      split at hbefore
      · next hnode =>
        subst hnode
        cases haction : write.action with
        | upsert written =>
          rw [haction] at hbefore
          simp only [Desired.Action.apply, SortedMap.lookup_insert] at hbefore
          split at hbefore
          · next hname =>
            cases hbefore
            exact .inl ⟨write, List.mem_cons_self, hname.symm, haction⟩
          · exact .inr hbefore
        | delete =>
          rw [haction] at hbefore
          simp only [Desired.Action.apply, SortedMap.lookup_filter] at hbefore
          exact .inr (Option.mem_filter_iff.mp hbefore).1
      · exact .inr hbefore

/-! ## The invariant -/

/-- A thread's reads still hold, but for what was committed since. -/
structure ReadsInv (state : Center) (t : Nat) (loc : Loc) : Prop where
  versions : ∀ package ∈ loc.versions,
    (package.name, package.version) ∈ state.gone t ∨ package ∈ state.tables.versions
  writes : ∀ tx, state.desired.txs t = some tx → ∀ write ∈ tx.writes, Desires loc.versions write
  checked : ∀ name version, loc.checked = some (name, version) → ∀ nodeId row,
    (state.desired.tables.desired nodeId).lookup name = some row → row.version = version →
    (name, version) ∈ state.taken t

structure RefInv (state : Center) (locs : Nat → Loc) : Prop where
  nodup : state.tables.versions.Nodup
  nodes : ∀ nodeId ∉ state.nodes, state.desired.tables.desired nodeId = .empty
  rows : ∀ nodeId name row, (state.desired.tables.desired nodeId).lookup name = some row →
    Known state.tables.versions name row
  threads : ∀ t, ReadsInv state t (locs t)

theorem Changed.nodup (h : Changed formats loc tables tables') (hnodup : tables.versions.Nodup) :
    tables'.versions.Nodup := by
  cases h with
  | add hup hnew hlocked hadds =>
    rw [hadds.versions]
    refine List.Nodup.append hnodup (List.nodup_singleton _) fun row hrow hsame => ?_
    cases List.mem_singleton.mp hsame
    exact hadds.new hrow ⟨rfl, rfl⟩
  | ensure hup hfound hskills hversions hputs => rwa [hversions]
  | drop hrequest hseen hlocked hdrops =>
    rw [hdrops.versions]
    exact hnodup.filter _

theorem eq_singleton_of_nodup {α : Type} {xs : List α} {x : α} (hnodup : xs.Nodup)
    (hmem : ∀ y, y ∈ xs ↔ y = x) : xs = [x] := by
  refine List.perm_singleton.mp ((List.perm_ext_iff_of_nodup hnodup (List.nodup_singleton x)).mpr ?_)
  intro y
  rw [hmem, List.mem_singleton]

/-- The join of a row with the one version that it refers to. -/
theorem join_eq {name : String} {row : Desired.Row} (hinv : Catalogued formats tables)
    (hnodup : tables.versions.Nodup) (hknown : Known tables.versions name row) :
    ∃ package, tables.versions.filter (·.holds name row.version) = [package] := by
  obtain ⟨package, hmem, rfl, hversion, hsha⟩ := hknown
  refine ⟨package, eq_singleton_of_nodup (hnodup.filter _) fun other => ?_⟩
  rw [List.mem_filter, ParsedPackage.holds_iff, ← hversion]
  constructor
  · rintro ⟨hother, hname, hsame⟩
    exact hinv.key package hmem other hother hname hsame
  · rintro rfl
    exact ⟨hmem, rfl, rfl⟩

theorem RefInv.referenced {state : Center} {locs : Nat → Loc} (h : RefInv state locs)
    (hinv : Catalogued formats state.tables) : Referenced state := by
  refine ⟨fun nodeId name row hrow => ?_, fun nodeId => ?_⟩
  · obtain ⟨package, hmem, hname, hversion, hsha⟩ := h.rows nodeId name row hrow
    exact ⟨package, hmem, hname, hversion, hsha, hsha ▸ hinv.artifact package hmem⟩
  · have hentries : ∀ entry ∈ (state.desired.tables.desired nodeId).entries,
        Known state.tables.versions entry.1 entry.2 := fun entry hentry =>
      h.rows nodeId entry.1 entry.2 (SortedMap.lookup_eq_some_iff.mpr hentry)
    unfold buildDesired
    generalize (state.desired.tables.desired nodeId).entries = entries at hentries
    induction entries with
    | nil => rfl
    | cons entry entries ih =>
      obtain ⟨hentry, hentries⟩ := List.forall_mem_cons.mp hentries
      obtain ⟨package, hjoin⟩ := join_eq hinv h.nodup hentry
      rw [List.flatMap_cons, List.map_append, ih hentries]
      dsimp only
      rw [hjoin]
      rfl

variable {state state' : Center} {locs : Nat → Loc} {t t' : Nat}

/-! ### Operations on desired sets -/

/-- An operation that is no commit adds its write to its transaction at most. -/
theorem desired_exec {op : Desired.Op} {reply : op.Reply} {before after : Desired.Center}
    (hexec : Desired.exec t op before = some (reply, after)) (hop : op ≠ .commit) :
    after.tables = before.tables ∧ ∀ t' tx', after.txs t' = some tx' →
      ∀ write ∈ tx'.writes, (t' = t ∧ op = .write write) ∨
        ∃ tx, before.txs t' = some tx ∧ write ∈ tx.writes := by
  have hsame : ∀ t' tx', before.txs t' = some tx' → ∀ write ∈ tx'.writes,
      (t' = t ∧ op = .write write) ∨ ∃ tx, before.txs t' = some tx ∧ write ∈ tx.writes :=
    fun t' tx' htx write hwrite => .inr ⟨tx', htx, hwrite⟩
  cases op with
  | begin =>
    cases hexec
    refine ⟨rfl, fun t' tx' htx write hwrite => ?_⟩
    simp only [Function.update_apply] at htx
    split at htx
    · cases htx
      cases hwrite
    · exact hsame t' tx' htx write hwrite
  | loadDesired skillName | loadGenerations =>
    obtain ⟨tx, -, heq⟩ := Option.map_eq_some_iff.mp hexec
    cases heq
    exact ⟨rfl, hsame⟩
  | lockChain =>
    simp only [Desired.exec] at hexec
    split at hexec
    · cases hexec
      exact ⟨rfl, hsame⟩
    · cases hexec
  | write write =>
    obtain ⟨tx, htx, heq⟩ := Option.map_eq_some_iff.mp hexec
    split at heq
    · cases heq
      refine ⟨rfl, fun t' tx' htx' later hlater => ?_⟩
      simp only [Function.update_apply] at htx'
      split at htx'
      · next ht =>
        cases htx'
        rcases List.mem_append.mp hlater with hbefore | hnew
        · exact .inr ⟨tx, ht ▸ htx, hbefore⟩
        · exact .inl ⟨ht, by rw [List.mem_singleton.mp hnew]⟩
      · exact hsame t' tx' htx' later hlater
    · cases heq
      exact ⟨rfl, hsame⟩
  | commit => exact absurd rfl hop
  | rollback =>
    cases hexec
    refine ⟨rfl, fun t' tx' htx write hwrite => ?_⟩
    simp only [Desired.Center.finish, Function.update_apply] at htx
    split at htx
    · cases htx
    · exact hsame t' tx' htx write hwrite
  | readGeneration _ | readDesired _ | push _ _ _ =>
    cases hexec
    exact ⟨rfl, hsame⟩

/-! ### Steps -/

theorem ReadsInv.mono (h : ReadsInv state t loc)
    (hversions : ∀ package ∈ state.tables.versions,
      (package.name, package.version) ∈ state'.gone t ∨ package ∈ state'.tables.versions)
    (hgone : state.gone t ⊆ state'.gone t)
    (hwrites : ∀ tx', state'.desired.txs t = some tx' → ∀ write ∈ tx'.writes,
      ∃ tx, state.desired.txs t = some tx ∧ write ∈ tx.writes)
    (hrows : ∀ nodeId name row, (state'.desired.tables.desired nodeId).lookup name = some row →
      (name, row.version) ∈ state'.taken t ∨
        (state.desired.tables.desired nodeId).lookup name = some row)
    (htaken : state.taken t ⊆ state'.taken t) : ReadsInv state' t loc := by
  refine ⟨fun package hpackage => ?_, fun tx' htx' write hwrite => ?_, ?_⟩
  · rcases h.versions package hpackage with hgone' | hmem
    · exact .inl (hgone hgone')
    · exact hversions package hmem
  · obtain ⟨tx, htx, hwrite⟩ := hwrites tx' htx' write hwrite
    exact h.writes tx htx write hwrite
  · rintro name version hchecked nodeId row hrow rfl
    rcases hrows nodeId name row hrow with htaken' | hrow
    · exact htaken'
    · exact htaken (h.checked name row.version hchecked nodeId row hrow rfl)

/-- The thread goes on, having read versions that are there. -/
theorem ReadsInv.goes (h : ReadsInv state t loc) {loc' : Loc}
    (hkept : loc.versions ⊆ loc'.versions)
    (hread : ∀ package ∈ loc'.versions, package ∈ loc.versions ∨ package ∈ state.tables.versions)
    (hchecked : loc'.checked = loc.checked ∨ loc'.checked = none) : ReadsInv state t loc' := by
  refine ⟨fun package hpackage => ?_, fun tx htx write hwrite row hrow => ?_, ?_⟩
  · rcases hread package hpackage with hbefore | hmem
    · exact h.versions package hbefore
    · exact .inr hmem
  · exact (h.writes tx htx write hwrite row hrow).mono hkept
  · intro name version hfound
    rcases hchecked with heq | heq
    · exact h.checked name version (heq.symm.trans hfound)
    · rw [heq] at hfound
      cases hfound

/-- A step that changes locks and snapshots. -/
theorem RefInv.same (h : RefInv state locs) {loc' : Loc} {holder : Lock → Option Nat}
    {snapshots : Nat → Option Tables} (hkept : (locs t).versions ⊆ loc'.versions)
    (hread : ∀ package ∈ loc'.versions,
      package ∈ (locs t).versions ∨ package ∈ state.tables.versions)
    (hchecked : loc'.checked = (locs t).checked ∨ loc'.checked = none) :
    RefInv { state with holder, snapshots } (Function.update locs t loc') := by
  refine ⟨h.nodup, h.nodes, h.rows, fun t' => ?_⟩
  rw [Function.update_apply]
  split
  · next heq =>
    subst heq
    have hthread := (h.threads t').goes hkept hread hchecked
    exact ⟨hthread.versions, hthread.writes, hthread.checked⟩
  · exact ⟨(h.threads t').versions, (h.threads t').writes, (h.threads t').checked⟩

/-- The same, when the thread read no version. -/
theorem RefInv.quiet (h : RefInv state locs) {loc' : Loc} {holder : Lock → Option Nat}
    {snapshots : Nat → Option Tables} (hversions : loc'.versions = (locs t).versions)
    (hchecked : loc'.checked = (locs t).checked ∨ loc'.checked = none) :
    RefInv { state with holder, snapshots } (Function.update locs t loc') := by
  refine h.same ?_ ?_ hchecked
  · exact hversions ▸ List.Subset.refl _
  · exact fun package hpackage => .inl (hversions ▸ hpackage)

theorem RefInv.commit (h : RefInv state locs) {writes : List Write}
    (hcommits : Commits formats (locs t) writes)
    (hstored : ∀ sha256 ∈ (locs t).stored, (state.tables.artifacts sha256).isSome)
    (happly : applyAll writes state.tables = some tables')
    (hundisturbed : ∀ pin ∈ deletedBy writes, pin ∉ state.taken t) :
    RefInv ((state.commit tables' writes).finish t)
      (Function.update locs t (locs t).finish) := by
  have hafter : ∀ t', ∀ package ∈ state.tables.versions,
      (package.name, package.version) ∈ ((state.commit tables' writes).finish t).gone t' ∨
        package ∈ tables'.versions := by
    intro t' package hmem
    rcases mem_of_applyAll happly hmem with hmem | hdeleted
    · exact .inr hmem
    · exact .inl (List.mem_append_left _ hdeleted)
  refine ⟨(hcommits.changed hstored happly).nodup h.nodup, h.nodes, ?_, fun t' => ?_⟩
  · intro nodeId name row hrow
    obtain ⟨package, hmem, hname, hversion, hsha⟩ := h.rows nodeId name row hrow
    rcases mem_of_applyAll happly hmem with hmem | hdeleted
    · exact ⟨package, hmem, hname, hversion, hsha⟩
    · -- The deletion would have found the row.
      have hchecked := hcommits.checked hdeleted
      have htaken := (h.threads t).checked _ _ hchecked nodeId row (hname ▸ hrow) hversion.symm
      exact absurd htaken (hundisturbed _ hdeleted)
  · have hthread : ReadsInv ((state.commit tables' writes).finish t) t' (locs t') :=
      (h.threads t').mono (hafter t') (List.subset_append_right _ _)
        (fun tx htx write hwrite => ⟨tx, htx, hwrite⟩) (fun _ _ _ hrow => .inr hrow)
        (List.Subset.refl _)
    rw [Function.update_apply]
    split
    · next heq =>
      subst heq
      exact hthread.goes (List.Subset.refl _) (fun _ hpackage => .inl hpackage) (.inr rfl)
    · exact hthread

/-- A transaction makes versions desired. -/
theorem RefInv.desire_commit (h : RefInv state locs) {tx : Desired.Tx}
    (htx : state.desired.txs t = some tx)
    (hundisturbed : ∀ pin ∈ wantedBy (state.pending t), pin ∉ state.gone t) :
    RefInv (state.desire t .commit ((state.desired.commit tx).finish t)) locs := by
  have hpending : state.pending t = tx.writes := by
    unfold Center.pending
    rw [htx]
  have hrows : ∀ nodeId name row,
      ((Desired.applyAll tx.writes state.desired.tables).desired nodeId).lookup name = some row →
      (name, row.version) ∈ wantedBy tx.writes ∧ Known (locs t).versions name row ∨
        (state.desired.tables.desired nodeId).lookup name = some row := by
    intro nodeId name row hrow
    refine (lookup_applyAll hrow).imp_left ?_
    rintro ⟨write, hwrite, rfl, haction⟩
    exact ⟨mem_wantedBy hwrite haction, (h.threads t).writes tx htx write hwrite row haction⟩
  refine ⟨h.nodup, fun nodeId hnode => ?_, fun nodeId name row hrow => ?_, fun t' => ?_⟩
  · have hsplit := List.mem_append.not.mp hnode
    rw [not_or, hpending] at hsplit
    show (Desired.applyAll tx.writes state.desired.tables).desired nodeId = _
    rw [(Desired.applyAll_of_no_write (List.countP_eq_zero.mpr fun write hwrite hfor => ?_) _).2]
    · exact h.nodes nodeId hsplit.2
    · exact hsplit.1 (List.mem_map.mpr ⟨write, hwrite, of_decide_eq_true hfor⟩)
  · rcases hrows nodeId name row hrow with ⟨hwanted, package, hpackage, rfl, hversion, hsha⟩ | hrow
    · rcases (h.threads t).versions package hpackage with hgone | hmem
      · rw [hversion] at hgone
        exact absurd hgone (hundisturbed _ (hpending ▸ hwanted))
      · exact ⟨package, hmem, rfl, hversion, hsha⟩
    · exact h.rows nodeId name row hrow
  · refine (h.threads t').mono (fun _ hmem => .inr hmem) (List.Subset.refl _) ?_ ?_
      (List.subset_append_right _ _)
    · intro tx' htx' write hwrite
      simp only [Center.desire, Desired.Center.finish, Function.update_apply] at htx'
      split at htx'
      · cases htx'
      · exact ⟨tx', htx', hwrite⟩
    · intro nodeId name row hrow
      refine (hrows nodeId name row hrow).imp_left fun hwanted => ?_
      exact List.mem_append_left _ (hpending ▸ hwanted.1)

/-- A deletion looks for users. -/
theorem RefInv.inUse (h : RefInv state locs) {name version : String} {elsewhere : Bool}
    (hpre : (locs t).checked = none) :
    RefInv { state with
        snapshots := Function.update state.snapshots t (some state.tables)
        taken := Function.update state.taken t [] }
      (Function.update locs t
        (note (.versionInUse name version) (state.inUse name version || elsewhere) (locs t))) := by
  refine ⟨h.nodup, h.nodes, h.rows, fun t' => ?_⟩
  rw [Function.update_apply]
  split
  · next heq =>
    subst heq
    cases hused : state.inUse name version || elsewhere with
    | true =>
      refine ⟨(h.threads t').versions, (h.threads t').writes, ?_⟩
      intro name version hchecked
      have hsome : (locs t').checked = some (name, version) := hchecked
      rw [hpre] at hsome
      cases hsome
    | false =>
      refine ⟨(h.threads t').versions, (h.threads t').writes, ?_⟩
      rintro _ _ hchecked nodeId row hrow rfl
      cases hchecked
      have hnone : state.inUse name row.version = false := (Bool.or_eq_false_iff.mp hused).1
      by_cases hnode : nodeId ∈ state.nodes
      · have hfalse := List.any_eq_false.mp hnone nodeId hnode
        rw [hrow] at hfalse
        simp at hfalse
      · rw [h.nodes nodeId hnode] at hrow
        cases hrow
  · next hne =>
    refine ⟨(h.threads t').versions, (h.threads t').writes, ?_⟩
    intro name version hchecked nodeId row hrow hversion
    show (name, version) ∈ Function.update state.taken t [] t'
    rw [Function.update_of_ne hne]
    exact (h.threads t').checked name version hchecked nodeId row hrow hversion

/-- An operation of a transaction on desired sets that does not end it. -/
theorem RefInv.desire (h : RefInv state locs) {op : Desired.Op} {reply : op.Reply}
    {after : Desired.Center} (hpre : mayPerform formats (.desired op) (locs t))
    (hexec : Desired.exec t op state.desired = some (reply, after)) (hop : op ≠ .commit) :
    RefInv { state with desired := after } locs := by
  obtain ⟨htables, htxs⟩ := desired_exec hexec hop
  refine ⟨h.nodup, ?_, ?_, fun t' => ⟨(h.threads t').versions, ?_, ?_⟩⟩
  · rw [htables]
    exact h.nodes
  · rw [htables]
    exact h.rows
  · intro tx htx write hwrite
    rcases htxs t' tx htx write hwrite with ⟨rfl, rfl⟩ | ⟨tx', htx', hwrite⟩
    · exact hpre
    · exact (h.threads t').writes tx' htx' write hwrite
  · rw [htables]
    exact (h.threads t').checked

theorem RefInv.exec (h : RefInv state locs) (hinv : Invariant formats state locs) {op : Op}
    {elsewhere : Bool} {reply : op.Reply} (hpre : mayPerform formats op (locs t))
    (hdesire : op = .desired .commit →
      ∀ pin ∈ wantedBy (state.pending t), pin ∉ state.gone t)
    (hdelete : ∀ writes, op = .commit writes → ∀ pin ∈ deletedBy writes, pin ∉ state.taken t)
    (hexec : exec t op elsewhere state = some (reply, state')) :
    RefInv state' (Function.update locs t (note op reply (locs t))) := by
  cases op with
  | lockSkill _ | insertSkill _ | insertArtifact _ =>
    simp only [Catalog.exec] at hexec
    split at hexec
    · split at hexec
      all_goals
        cases hexec
        exact h.quiet rfl (.inl rfl)
    · cases hexec
  | lockArtifact sha256 =>
    simp only [Catalog.exec] at hexec
    split at hexec
    · split at hexec
      all_goals
        cases hexec
        exact h.quiet rfl (.inl rfl)
    · cases hexec
  | versionInUse name version =>
    cases hexec
    exact h.inUse hpre
  | artifactUsed name version sha256 =>
    obtain ⟨snapshot, -, heq⟩ := Option.map_eq_some_iff.mp hexec
    cases heq
    exact h.quiet rfl (.inl rfl)
  | commit writes =>
    simp only [Catalog.exec] at hexec
    split at hexec
    · next tables happly =>
      cases hexec
      refine h.commit hpre (fun sha256 hmem => ?_) happly (hdelete writes rfl)
      exact ((hinv.threads t).stored sha256 hmem).2
    · cases hexec
      exact h.quiet rfl (.inr rfl)
  | rollback =>
    cases hexec
    exact h.quiet rfl (.inr rfl)
  | loadVersions name =>
    cases hexec
    refine h.same (List.subset_append_left _ _) (fun package hpackage => ?_) (.inl rfl)
    exact (List.mem_append.mp hpackage).imp_right fun hread => (List.mem_filter.mp hread).1
  | desired op =>
    obtain ⟨⟨_, after⟩, hdesired, heq⟩ := Option.map_eq_some_iff.mp hexec
    cases heq
    have hlocs : Function.update locs t (note (.desired op) reply (locs t)) = locs :=
      Function.update_eq_self t locs
    rw [hlocs]
    by_cases hop : op = .commit
    · subst hop
      obtain ⟨tx, htx, heq⟩ := Option.map_eq_some_iff.mp hdesired
      cases heq
      exact h.desire_commit htx (hdesire rfl)
    · have hafter : state.desire t op after = { state with desired := after } := by
        cases op with
        | commit => exact absurd rfl hop
        | _ => rfl
      rw [hafter]
      exact h.desire hpre hdesired hop
  | _ =>
    cases hexec
    exact h.quiet rfl (.inl rfl)

/-! ## Runs -/

variable {hosts : String → Skills.Host} {sys : System}

theorem refInv_of_reaches (h : (center setup).Reaches undisturbed (initial hosts) sys) :
    RefInv sys.shared sys.loc := by
  refine h.invariant (center_obeys setup) (initial_sound setup hosts) ?_ ?_ ?_
  · refine ⟨List.nodup_nil, fun nodeId _ => rfl, fun nodeId name row hrow => ?_, fun t => ?_⟩
    · cases hrow
    · refine ⟨fun package hpackage => ?_, fun tx htx => ?_, fun name version hchecked => ?_⟩
      · cases hpackage
      · cases htx
      · cases hchecked
  · intro sys t op elsewhere reply state hreach hinv hok habout hpre _ hexec
    refine hinv.exec (invariant_of_reaches hreach) hpre ?_ ?_ hexec
    · rintro rfl
      exact hok.1 habout
    · rintro writes rfl
      exact hok.2 writes habout
  · intro sys event sys' _ hinv _ hfire
    cases event with
    | start t request =>
      simp only [center, fire] at hfire
      split at hfire
      · next houtside =>
        cases hfire
        rw [Machine.loc_update]
        refine ⟨hinv.nodup, hinv.nodes, hinv.rows, fun t' => ?_⟩
        rw [Function.update_apply]
        split
        · next heq =>
          subst heq
          have hnone : sys.shared.desired.txs t' = none := by
            simp only [Center.outside, Bool.and_eq_true, Option.isNone_iff_eq_none] at houtside
            exact houtside.2.2
          refine ⟨fun package hpackage => ?_, fun tx htx => ?_, fun name version hchecked => ?_⟩
          · cases hpackage
          · cases hnone.symm.trans htx
          · cases hchecked
        · next hne =>
          refine ⟨fun package hpackage => ?_, (hinv.threads t').writes, (hinv.threads t').checked⟩
          show _ ∈ Function.update sys.shared.gone t [] t' ∨ _
          rw [Function.update_of_ne hne]
          exact (hinv.threads t').versions package hpackage
      · cases hfire
    | abort t =>
      cases hfire
      rw [Machine.loc_update]
      refine ⟨hinv.nodup, hinv.nodes, hinv.rows, fun t' => ?_⟩
      rw [Function.update_apply]
      split
      · next heq =>
        subst heq
        refine ⟨fun package hpackage => ?_, fun tx htx => ?_, fun name version hchecked => ?_⟩
        · cases hpackage
        · simp [Desired.Center.finish] at htx
        · cases hchecked
      · next hne =>
        refine ⟨(hinv.threads t').versions, fun tx htx => ?_, (hinv.threads t').checked⟩
        simp only [Desired.Center.finish, Function.update_of_ne hne] at htx
        exact (hinv.threads t').writes tx htx

/-- When nothing commits that another transaction's look has missed, the rows of every node
refer to versions that exist. -/
theorem desired_versions_exist (setup : Setup) (hosts : String → Skills.Host) (sys : System)
    (h : (center setup).Reaches undisturbed (initial hosts) sys) : Referenced sys.shared :=
  (refInv_of_reaches h).referenced (invariant_of_reaches h).tables

/-! ## An install and a deletion -/

/-- Decides `undisturbed`. -/
def keepsApart (sys : System) : Move Nat Bool Event → Bool
  | .act t _ =>
    match (sys.threads t).prog with
    | .perform (.desired .commit) _ =>
      (wantedBy (sys.shared.pending t)).all fun pin => decide (pin ∉ sys.shared.gone t)
    | .perform (.commit writes) _ =>
      (deletedBy writes).all fun pin => decide (pin ∉ sys.shared.taken t)
    | _ => true
  | .event _ => true

theorem undisturbed_of_keepsApart {m : Move Nat Bool Event} (h : keepsApart sys m = true) :
    undisturbed sys m := by
  cases m with
  | event event => trivial
  | act t elsewhere =>
    refine ⟨?_, ?_⟩
    · rintro ⟨next, hprog⟩ pin hpin
      simp only [keepsApart, hprog] at h
      exact of_decide_eq_true (List.all_eq_true.mp h pin hpin)
    · rintro writes ⟨next, hprog⟩ pin hpin
      simp only [keepsApart, hprog] at h
      exact of_decide_eq_true (List.all_eq_true.mp h pin hpin)

def installOf : Request :=
  .install "uptime"
    ⟨"1.0.0", some "cd3e8bd2e5ad4111639ca6f8bf904ccdb5013d520b20bb15f6526e423b37f467", false⟩
    ⟨[⟨"n", "", []⟩], List.nodup_singleton _⟩

def acts (t steps : Nat) : List (Move Nat Bool Event) := List.replicate steps (.act t false)

/-- The package is uploaded, and then installed. -/
def installedMoves : List (Move Nat Bool Event) :=
  uploadMoves 0 6 ++ [.event (.start 1 installOf)] ++ acts 1 8

/-- The node has the row. -/
def desires (sys : System) : Bool :=
  ((sys.shared.desired.tables.desired "n").lookup "uptime").isSome

theorem desired_versions_exist_installed :
    ∃ sys, (center sampleSetup).Reaches undisturbed (initial plainHosts) sys ∧
      desires sys = true ∧ Referenced sys.shared := by
  have hrun : ((center sampleSetup).run keepsApart (initial plainHosts) installedMoves).any
      desires = true := by
    decide +kernel
  obtain ⟨sys, hreach, hcheck⟩ :=
    Machine.exists_reaches_of_run (fun _ _ => undisturbed_of_keepsApart) hrun
  exact ⟨sys, hreach, hcheck, desired_versions_exist sampleSetup plainHosts sys hreach⟩

/-- The version is deleted after the install read it and before its transaction. -/
def danglingMoves : List (Move Nat Bool Event) :=
  uploadMoves 0 6 ++ [.event (.start 1 installOf)] ++ acts 1 2 ++
    [.event (.start 2 (.delete "uptime" "1.0.0"))] ++ acts 2 7 ++ acts 1 6

/-- The row of the node is of no version, and its list leaves it out. -/
theorem version_dangles :
    ∃ sys, (center sampleSetup).Reaches (fun _ _ => True) (initial plainHosts) sys ∧
      desires sys = true ∧ buildDesired sys.shared "n" = [] ∧ ¬ Referenced sys.shared := by
  have hrun : ((center sampleSetup).run (fun _ _ => true) (initial plainHosts) danglingMoves).any
      (fun sys => desires sys && decide (buildDesired sys.shared "n" = [])) = true := by
    decide +kernel
  have hsome : ∃ sys, (center sampleSetup).Reaches (fun _ _ => True) (initial plainHosts) sys ∧
      _ = true := Machine.exists_reaches_of_run (fun _ _ _ => trivial) hrun
  obtain ⟨sys, hreach, hcheck⟩ := hsome
  obtain ⟨hdesires, hempty⟩ := Bool.and_eq_true_iff.mp hcheck
  have hempty : buildDesired sys.shared "n" = [] := of_decide_eq_true hempty
  refine ⟨sys, hreach, hdesires, hempty, fun hreferenced => ?_⟩
  have hlist := hreferenced.lists "n"
  rw [hempty] at hlist
  obtain ⟨row, hrow⟩ := Option.isSome_iff_exists.mp hdesires
  have hmem := SortedMap.lookup_eq_some_iff.mp hrow
  rw [← hlist] at hmem
  cases hmem

end Novbot.Catalog
