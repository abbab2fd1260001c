import Novbot.Catalog.Center

/-!
# What a request on the catalog does

An upload answers by what it read of its version when it had locked the skill, and commits
by it.  A deletion commits only for a version that it locked and found no user of.  The
requests on desired sets write rows of the versions that they read.
-/

namespace Novbot.Catalog

open Concurrent Package

variable (formats : Formats)

/-! ## The contract -/

/-- The writes with which a transaction has an artifact stored. -/
inductive Stores (loc : Loc) (sha256 : String) (data : Bytes) : List Write → Prop where
  | there : sha256 ∈ loc.stored → Stores loc sha256 data []
  | insert : formats.sha256 data = sha256 → Stores loc sha256 data [.insertArtifact sha256 data]

/-- The request is an upload of the package. -/
structure Loc.Uploads (loc : Loc) (body : Bytes) (package : ParsedPackage) : Prop where
  request : loc.request = some (.upload body)
  accepted : acceptUpload formats body = .ok package

/-- What the transaction read of the version of the package. -/
def Loc.found (loc : Loc) (package : ParsedPackage) (sha256 : Option String) : Prop :=
  loc.seen = some (package.name, package.version, sha256)

/-- The writes that a request commits. -/
inductive Commits (loc : Loc) : List Write → Prop where
  | create {body : Bytes} {package : ParsedPackage} {stored : List Write} :
    loc.Uploads formats body package → loc.seen = none →
    .skill package.name ∈ loc.locked →
    Stores formats loc package.sha256 body stored →
    Commits loc (.insertSkill package :: (stored ++ [.insertVersion package]))
  | update {body : Bytes} {package : ParsedPackage} {stored : List Write} :
    loc.Uploads formats body package → loc.found package none →
    .skill package.name ∈ loc.locked →
    Stores formats loc package.sha256 body stored →
    Commits loc (.updateSkill package :: (stored ++ [.insertVersion package]))
  | ensure {body : Bytes} {package : ParsedPackage} {stored : List Write} :
    loc.Uploads formats body package → loc.found package (some package.sha256) →
    Stores formats loc package.sha256 body stored →
    Commits loc stored
  | delete {name version sha256 : String} {dropped : List Write} :
    loc.request = some (.delete name version) →
    loc.seen = some (name, version, some sha256) →
    .skill name ∈ loc.locked →
    loc.checked = some (name, version) →
    (dropped = [] ∨ dropped = [.deleteArtifact sha256] ∧ .artifact sha256 ∈ loc.locked) →
    Commits loc (.deleteVersion name version :: dropped)

/-- The outcomes that a request responds with. -/
inductive Answers (loc : Loc) : Outcome → Prop where
  | refused {body : Bytes} {err : CatalogError} :
    loc.request = some (.upload body) → acceptUpload formats body = .error err →
    Answers loc (.refused err)
  | created {body : Bytes} {package : ParsedPackage} :
    loc.Uploads formats body package → (∀ sha256, ¬ loc.found package (some sha256)) →
    Answers loc (.registered true package)
  | again {body : Bytes} {package : ParsedPackage} :
    loc.Uploads formats body package → loc.found package (some package.sha256) →
    Answers loc (.registered false package)
  | different {body : Bytes} {package : ParsedPackage} {sha256 : String} :
    loc.Uploads formats body package → loc.found package (some sha256) →
    sha256 ≠ package.sha256 → Answers loc .versionExists
  | failed {body : Bytes} {package : ParsedPackage} :
    loc.Uploads formats body package →
    (∀ sha256, loc.found package (some sha256) → sha256 = package.sha256) →
    Answers loc .internal
  | deletion {name version : String} {outcome : Outcome} :
    loc.request = some (.delete name version) → Answers loc outcome

/-- The row is of a version that was read. -/
def Known (versions : List ParsedPackage) (skillName : String) (row : Desired.Row) : Prop :=
  ∃ package ∈ versions, package.name = skillName ∧ package.version = row.version ∧
    package.sha256 = row.sha256

/-- What a write makes desired is a version that was read. -/
def Desires (versions : List ParsedPackage) (write : Desired.NodeWrite) : Prop :=
  ∀ row, write.action = .upsert row → Known versions write.skillName row

def mayPerform (op : Op) (loc : Loc) : Prop :=
  match op with
  | .lockSkill _ => loc.seen = none
  | .insertSkill _ => loc.seen = none
  | .versionInUse _ _ => loc.checked = none
  | .commit writes => Commits formats loc writes
  | .desired (.write write) => Desires loc.versions write
  | .respond outcome => Answers formats loc outcome
  | _ => True

def given (op : Op) (_ : Loc) (reply : op.Reply) : Prop :=
  match op, reply with
  | .loadVersions name, versions => ∀ row ∈ versions, row.name = name
  | _, _ => True

def terms : Machine.Terms Op.Reply Nat Loc where
  pre _ op loc := mayPerform formats op loc
  gives _ op loc reply := given op loc reply
  rest _ _ := True

abbrev meets {α : Type} (prog : Prog α) (post : α → Loc → Prop) (loc : Loc) : Prop :=
  prog.Meets ⟨mayPerform formats, given, note⟩ post loc

variable {formats} {body : Bytes} {package : ParsedPackage} {loc loc' : Loc}

/-! ## Uploads -/

/-- The transaction took more locks. -/
structure Loc.Later (loc loc' : Loc) : Prop where
  request : loc'.request = loc.request
  seen : loc'.seen = loc.seen
  locked : loc.locked ⊆ loc'.locked
  checked : loc'.checked = loc.checked

theorem Loc.Later.refl (loc : Loc) : loc.Later loc := ⟨rfl, rfl, List.Subset.refl _, rfl⟩

theorem Loc.Later.uploads (h : loc.Later loc') (hup : loc.Uploads formats body package) :
    loc'.Uploads formats body package := ⟨h.request.trans hup.request, hup.accepted⟩

theorem Loc.later_lockArtifact (loc : Loc) (sha256 : String) (size : Option Nat) :
    loc.Later (note (.lockArtifact sha256) size loc) := by
  cases size with
  | none => exact .refl loc
  | some size => exact ⟨rfl, rfl, List.subset_cons_self _ _, rfl⟩

theorem putArtifact_meets (sha256 : String) (data : Bytes) (loc : Loc) :
    meets formats (putArtifact formats sha256 data) (fun stored loc' => loc.Later loc' ∧
      ∀ writes, stored = some writes → Stores formats loc' sha256 data writes) loc := by
  have hthere : ∀ (loc : Loc) (size : Nat) (writes : List Write),
      (if size = data.length then some [] else none) = some writes →
      Stores formats (note (.lockArtifact sha256) (some size) loc) sha256 data writes := by
    intro loc size writes h
    split at h
    · cases h
      exact .there List.mem_cons_self
    · cases h
  unfold putArtifact
  split
  · exact ⟨.refl loc, fun writes h => by cases h⟩
  · next hsha =>
    refine ⟨trivial, fun size _ => ?_⟩
    cases size with
    | some size => exact ⟨loc.later_lockArtifact sha256 (some size), hthere loc size⟩
    | none =>
      refine ⟨trivial, fun inserted _ => ?_⟩
      cases inserted with
      | true =>
        refine ⟨⟨rfl, rfl, List.subset_cons_self _ _, rfl⟩, fun writes h => ?_⟩
        cases h
        exact .insert (not_not.mp hsha)
      | false =>
        refine ⟨trivial, fun size _ => ⟨loc.later_lockArtifact sha256 size, ?_⟩⟩
        intro writes h
        cases size with
        | some size => exact hthere loc size writes h
        | none => cases h

/-- What an upload ends with, when what it commits may be committed. -/
theorem commitStored_meets {created : Bool} {first last : List Write} {sha256 : String}
    {data : Bytes} {loc : Loc} {stored : Option (List Write)}
    (hstored : ∀ writes, stored = some writes → Stores formats loc sha256 data writes)
    (hcommits : ∀ writes, Stores formats loc sha256 data writes →
      Commits formats loc (first ++ writes ++ last)) :
    meets formats (commitStored created package first last stored) (fun outcome loc' =>
      loc' = loc.finish ∧ (outcome = .registered created package ∨ outcome = .internal)) loc := by
  cases stored with
  | none => exact ⟨trivial, fun _ _ => ⟨rfl, .inr rfl⟩⟩
  | some writes =>
    refine ⟨hcommits writes (hstored writes rfl), fun committed _ => ?_⟩
    cases committed with
    | true => exact ⟨rfl, .inl rfl⟩
    | false => exact ⟨rfl, .inr rfl⟩

theorem Answers.of_new {outcome : Outcome} (hup : loc.Uploads formats body package)
    (hnew : ∀ sha256, ¬ loc.found package (some sha256))
    (h : outcome = .registered true package ∨ outcome = .internal) :
    Answers formats loc outcome := by
  rcases h with rfl | rfl
  · exact .created hup hnew
  · exact .failed hup fun sha256 hfound => absurd hfound (hnew sha256)

theorem Answers.of_again {outcome : Outcome} (hup : loc.Uploads formats body package)
    (hfound : loc.found package (some package.sha256))
    (h : outcome = .registered false package ∨ outcome = .internal) :
    Answers formats loc outcome := by
  rcases h with rfl | rfl
  · exact .again hup hfound
  · refine .failed hup fun sha256 hother => ?_
    rw [Loc.found, hfound] at hother
    cases hother
    rfl

theorem Loc.Uploads.finish (h : loc.Uploads formats body package) :
    loc.finish.Uploads formats body package := ⟨h.request, h.accepted⟩

/-- The upload writes its version. -/
theorem writeVersion_meets {first : Write} (hup : loc.Uploads formats body package)
    (hnew : ∀ sha256, ¬ loc.found package (some sha256))
    (hcommits : ∀ loc' writes, loc.Later loc' →
      Stores formats loc' package.sha256 body writes →
      Commits formats loc' (first :: (writes ++ [.insertVersion package]))) :
    meets formats (writeVersion formats body package first)
      (fun outcome loc' => Answers formats loc' outcome) loc := by
  refine (putArtifact_meets package.sha256 body loc).bind ?_
  rintro stored loc' ⟨hlater, hstored⟩
  refine (commitStored_meets hstored fun writes hwrites =>
    hcommits loc' writes hlater hwrites).mono ?_
  rintro outcome _ ⟨rfl, houtcome⟩
  refine .of_new (hlater.uploads hup).finish (fun sha256 hfound => ?_) houtcome
  exact hnew sha256 (hlater.seen.symm.trans hfound)

theorem ensureArtifact_meets (hup : loc.Uploads formats body package)
    (hfound : loc.found package (some package.sha256)) :
    meets formats (ensureArtifact formats body package)
      (fun outcome loc' => Answers formats loc' outcome) loc := by
  refine ⟨trivial, fun found _ => ?_⟩
  cases found with
  | true => exact .again hup hfound
  | false =>
    refine (putArtifact_meets package.sha256 body loc).bind ?_
    rintro stored loc' ⟨hlater, hstored⟩
    have hfound' : loc'.found package (some package.sha256) := hlater.seen.trans hfound
    refine (commitStored_meets hstored fun writes hwrites => ?_).mono ?_
    · rw [List.nil_append, List.append_nil]
      exact .ensure (hlater.uploads hup) hfound' hwrites
    · rintro outcome _ ⟨rfl, houtcome⟩
      exact .of_again (hlater.uploads hup).finish hfound' houtcome

theorem persistVersion_meets (hup : loc.Uploads formats body package)
    (hlocked : .skill package.name ∈ loc.locked) :
    meets formats (persistVersion formats body package)
      (fun outcome loc' => Answers formats loc' outcome) loc := by
  refine ⟨trivial, fun found _ => ?_⟩
  cases found with
  | none =>
    refine writeVersion_meets ⟨hup.request, hup.accepted⟩ (fun sha256 hfound => by cases hfound) ?_
    intro loc' writes hlater hwrites
    refine .update (hlater.uploads ⟨hup.request, hup.accepted⟩) hlater.seen ?_ hwrites
    exact hlater.locked hlocked
  | some existing =>
    refine ⟨trivial, fun _ _ => ?_⟩
    show meets formats (if existing = package.sha256 then _ else _) _ _
    split
    · next hsame =>
      subst hsame
      exact ensureArtifact_meets ⟨hup.request, hup.accepted⟩ rfl
    · next hdifferent => exact .different ⟨hup.request, hup.accepted⟩ rfl hdifferent

theorem persist_meets (hup : loc.Uploads formats body package) (hseen : loc.seen = none) :
    meets formats (persist formats body package)
      (fun outcome loc' => Answers formats loc' outcome) loc := by
  have hnew : ∀ sha256, ¬ loc.found package (some sha256) := by
    intro sha256 hfound
    rw [Loc.found, hseen] at hfound
    cases hfound
  refine ⟨hseen, fun found _ => ?_⟩
  cases found with
  | true => exact persistVersion_meets ⟨hup.request, hup.accepted⟩ List.mem_cons_self
  | false =>
    refine ⟨hseen, fun inserted _ => ?_⟩
    cases inserted with
    | true =>
      refine writeVersion_meets ⟨hup.request, hup.accepted⟩ hnew ?_
      intro loc' writes hlater hwrites
      refine .create (hlater.uploads ⟨hup.request, hup.accepted⟩) (hlater.seen.trans hseen) ?_ hwrites
      exact hlater.locked List.mem_cons_self
    | false =>
      refine ⟨hseen, fun found _ => ?_⟩
      cases found with
      | true => exact persistVersion_meets ⟨hup.request, hup.accepted⟩ List.mem_cons_self
      | false =>
        refine ⟨trivial, fun _ _ => .failed ⟨hup.request, hup.accepted⟩ ?_⟩
        exact fun sha256 hfound => absurd hfound (hnew sha256)

theorem registerPackage_meets (body : Bytes) :
    meets formats (registerPackage formats body) (fun _ _ => True)
      (.fresh (some (.upload body))) := by
  unfold registerPackage
  cases haccept : acceptUpload formats body with
  | error err => exact ⟨.refused rfl haccept, fun _ _ => trivial⟩
  | ok package =>
    refine (persist_meets ⟨rfl, haccept⟩ rfl).bind ?_
    exact fun outcome loc' hanswer => ⟨hanswer, fun _ _ => trivial⟩

/-! ## Deletions -/

theorem dropArtifact_meets (name version sha256 : String) (loc : Loc) :
    meets formats (dropArtifact name version sha256) (fun dropped loc' => loc.Later loc' ∧
      (dropped = [] ∨ dropped = [.deleteArtifact sha256] ∧ .artifact sha256 ∈ loc'.locked)) loc := by
  refine ⟨trivial, fun used _ => ?_⟩
  cases used with
  | true => exact ⟨.refl loc, .inl rfl⟩
  | false =>
    refine ⟨trivial, fun size _ => ?_⟩
    cases size with
    | none => exact ⟨.refl loc, .inl rfl⟩
    | some size =>
      exact ⟨loc.later_lockArtifact sha256 (some size), .inr ⟨rfl, List.mem_cons_self⟩⟩

theorem dropVersion_meets {name version sha256 : String}
    (hrequest : loc.request = some (.delete name version))
    (hseen : loc.seen = some (name, version, some sha256)) (hlocked : .skill name ∈ loc.locked)
    (hchecked : loc.checked = none) :
    meets formats (dropVersion name version sha256)
      (fun _ loc' => loc'.request = some (.delete name version)) loc := by
  refine ⟨hchecked, fun used _ => ?_⟩
  cases used with
  | true => exact ⟨trivial, fun _ _ => hrequest⟩
  | false =>
    refine (dropArtifact_meets name version sha256 _).bind ?_
    rintro dropped loc' ⟨hlater, hdropped⟩
    refine ⟨?_, fun committed _ => ?_⟩
    · refine .delete (hlater.request.trans hrequest) (hlater.seen.trans hseen) ?_ hlater.checked
        hdropped
      exact hlater.locked hlocked
    · cases committed <;> exact hlater.request.trans hrequest

theorem deleteVersion_meets (name version : String) :
    meets formats (deleteVersion name version) (fun _ _ => True)
      (.fresh (some (.delete name version))) := by
  have hremove : meets formats (removeVersion name version)
      (fun _ loc' => loc'.request = some (.delete name version))
      (.fresh (some (.delete name version))) := by
    refine ⟨rfl, fun found _ => ?_⟩
    cases found with
    | false => exact ⟨trivial, fun _ _ => rfl⟩
    | true =>
      refine ⟨trivial, fun sha256 _ => ?_⟩
      cases sha256 with
      | none => exact ⟨trivial, fun _ _ => rfl⟩
      | some sha256 => exact dropVersion_meets rfl rfl List.mem_cons_self rfl
  exact hremove.bind fun outcome loc' hrequest => ⟨.deletion hrequest, fun _ _ => trivial⟩

/-! ## Desired sets -/

/-- The rows that a transaction may make desired. -/
def allowing (rows : String → Desired.Row → Prop) : Contract Desired.Op.Reply Unit where
  pre op _ :=
    match op with
    | .write write => ∀ row, write.action = .upsert row → rows write.skillName row
    | _ => True
  gives _ _ _ := True
  note _ _ _ := ()

theorem onDesired_meets {prog : Desired.Prog Unit}
    (h : prog.Meets (allowing (Known loc.versions)) (fun _ _ => True) ()) :
    meets formats (onDesired prog) (fun _ _ => True) loc := by
  induction prog with
  | done a => trivial
  | perform op next ih =>
    refine ⟨?_, fun reply _ => ih reply (h.2 reply trivial)⟩
    cases op with
    | write write => exact h.1
    | _ => trivial

variable {rows : String → Desired.Row → Prop} {setup : Desired.Setup}

/-- The plan makes only rows desired that it may. -/
def Allows (rows : String → Desired.Row → Prop) (skillName : String) (plan : Desired.NodePlan) :
    Prop :=
  ∀ row, plan.action = some (.upsert row) → rows skillName row

theorem allows_hold {skillName : String} {node : Desired.LiveNode} {outcome : Desired.Outcome}
    {generation : Int} : Allows rows skillName (Desired.hold node outcome generation) :=
  fun _ h => by cases h

theorem allows_classifyVersion {skillName : String} {desired : String → Option Desired.Row}
    {gens : String → Option Int} {node : Desired.LiveNode} {version sha256 : String}
    {minNodeVersion : Option String} {platforms : List String}
    (h : rows skillName ⟨version, sha256⟩) :
    Allows rows skillName (Desired.classifyVersion setup desired gens node version sha256
      minNodeVersion platforms) := by
  unfold Desired.classifyVersion
  dsimp only
  split
  · exact allows_hold
  · split
    · exact allows_hold
    · split
      · exact allows_hold
      · intro row hrow
        cases hrow
        exact h

/-- What a left fold that keeps its value or takes the element ends with. -/
theorem mem_of_foldl_select {α : Type} {select : Option α → α → Option α} {xs : List α}
    (hselect : ∀ best x, select best x = some x ∨ select best x = best) {best : Option α} {y : α}
    (h : xs.foldl select best = some y) : y ∈ xs ∨ best = some y := by
  induction xs generalizing best with
  | nil => exact .inr h
  | cons x xs ih =>
    rcases ih h with hmem | hbest
    · exact .inl (List.mem_cons_of_mem _ hmem)
    · rcases hselect best x with hx | hx
      · rw [hx] at hbest
        cases hbest
        exact .inl List.mem_cons_self
      · exact .inr (hx.symm.trans hbest)

theorem mem_of_previousVersion {versions : List Desired.VersionRecord} {current : Nat}
    {record : Desired.VersionRecord}
    (h : Desired.previousVersion setup versions current = some record) : record ∈ versions := by
  refine (mem_of_foldl_select (fun best row => ?_) h).elim
    (fun hmem => (List.mem_filter.mp hmem).1) fun hnone => by cases hnone
  cases best with
  | none => exact .inl rfl
  | some best =>
    dsimp only
    split
    · exact .inr rfl
    · exact .inl rfl

theorem allows_classifyRollback {skillName : String} {desired : String → Option Desired.Row}
    {gens : String → Option Int} {node : Desired.LiveNode} {explicit : Option Desired.VersionRecord}
    {versions : List Desired.VersionRecord}
    (hexplicit : ∀ record ∈ explicit, rows skillName ⟨record.version, record.sha256⟩)
    (hversions : ∀ record ∈ versions, rows skillName ⟨record.version, record.sha256⟩) :
    Allows rows skillName (Desired.classifyRollback setup desired gens explicit versions node) := by
  unfold Desired.classifyRollback
  split
  · exact allows_hold
  · next target htarget =>
    refine allows_classifyVersion ?_
    unfold Desired.rollbackTarget at htarget
    cases explicit with
    | some record =>
      cases htarget
      exact hexplicit target rfl
    | none =>
      obtain ⟨row, -, htarget⟩ := Option.bind_eq_some_iff.mp htarget
      obtain ⟨current, -, hprevious⟩ := Option.bind_eq_some_iff.mp htarget
      exact hversions target (mem_of_previousVersion hprevious)

theorem allows_classifyUninstall {skillName : String} {desired : String → Option Desired.Row}
    {gens : String → Option Int} {node : Desired.LiveNode} :
    Allows rows skillName (Desired.classifyUninstall desired gens node) := by
  unfold Desired.classifyUninstall
  dsimp only
  split
  · exact allows_hold
  · intro row hrow
    cases hrow

theorem persist_allows {skillName : String} {plans : List Desired.NodePlan}
    (h : ∀ plan ∈ plans, Allows rows skillName plan) :
    (Desired.persist skillName plans).Meets (allowing rows) (fun _ _ => True) () := by
  refine ⟨trivial, fun _ _ => ?_⟩
  induction plans with
  | nil => trivial
  | cons plan plans ih =>
    obtain ⟨hplan, hplans⟩ := List.forall_mem_cons.mp h
    show (Desired.persistNodes skillName (plan :: plans)).Meets _ _ _
    unfold Desired.persistNodes
    cases haction : plan.action with
    | none => exact ih hplans
    | some action =>
      refine ⟨fun row hrow => hplan row ?_, fun _ _ => ih hplans⟩
      rw [haction]
      exact congrArg some hrow

theorem writeInstalls_allows {slots : Desired.Slots} {plans : List Desired.InstallPlan}
    (h : ∀ plan ∈ plans, rows plan.skillName ⟨plan.version, plan.sha256⟩) :
    (Desired.writeInstalls setup slots plans).Meets (allowing rows) (fun _ _ => True) () := by
  induction plans with
  | nil => trivial
  | cons plan plans ih =>
    obtain ⟨hplan, hplans⟩ := List.forall_mem_cons.mp h
    refine ⟨trivial, fun desired _ => ⟨trivial, fun gens _ => ?_⟩⟩
    have hpersist : (Desired.persist plan.skillName
        (slots.nodes.map (Desired.classifyInstall setup desired gens plan))).Meets (allowing rows)
        (fun _ _ => True) () := by
      refine persist_allows fun nodePlan hmem => ?_
      obtain ⟨node, -, rfl⟩ := List.mem_map.mp hmem
      exact allows_classifyVersion hplan
    exact hpersist.bind fun _ _ _ => ih hplans

theorem applyInstalls_allows {slots : Desired.Slots} {plans : List Desired.InstallPlan}
    {dryRun : Bool} (h : ∀ plan ∈ plans, rows plan.skillName ⟨plan.version, plan.sha256⟩) :
    (Desired.applyInstalls setup plans slots dryRun).Meets (allowing rows) (fun _ _ => True) () := by
  refine ⟨trivial, fun _ _ => ?_⟩
  show (if _ then _ else _ : Desired.Prog Unit).Meets _ _ _
  split
  · exact ⟨trivial, fun _ _ => trivial⟩
  · exact (writeInstalls_allows h).bind fun _ _ _ => ⟨trivial, fun _ _ => trivial⟩

theorem rollback_allows {skillName : String} {explicit : Option Desired.VersionRecord}
    {versions : List Desired.VersionRecord} {slots : Desired.Slots}
    (hexplicit : ∀ record ∈ explicit, rows skillName ⟨record.version, record.sha256⟩)
    (hversions : ∀ record ∈ versions, rows skillName ⟨record.version, record.sha256⟩) :
    (Desired.rollback setup skillName explicit versions slots).Meets (allowing rows)
      (fun _ _ => True) () := by
  refine ⟨trivial, fun _ _ => ?_⟩
  show (if _ then _ else _ : Desired.Prog Unit).Meets _ _ _
  split
  · exact ⟨trivial, fun _ _ => trivial⟩
  · refine ⟨trivial, fun desired _ => ⟨trivial, fun gens _ => ?_⟩⟩
    show (if _ then _ else _ : Desired.Prog Unit).Meets _ _ _
    split
    · exact ⟨trivial, fun _ _ => trivial⟩
    · refine (persist_allows fun plan hmem => ?_).bind fun _ _ _ => ⟨trivial, fun _ _ => trivial⟩
      obtain ⟨node, -, rfl⟩ := List.mem_map.mp hmem
      exact allows_classifyRollback hexplicit hversions

theorem uninstall_allows {skillName : String} {slots : Desired.Slots} {force inUse : Bool} :
    (Desired.uninstall skillName slots force inUse).Meets (allowing rows) (fun _ _ => True) () := by
  refine ⟨trivial, fun _ _ => ?_⟩
  show (if _ then _ else _ : Desired.Prog Unit).Meets _ _ _
  split
  · exact ⟨trivial, fun _ _ => trivial⟩
  · refine ⟨trivial, fun desired _ => ⟨trivial, fun gens _ => ?_⟩⟩
    refine (persist_allows fun plan hmem => ?_).bind fun _ _ _ => ⟨trivial, fun _ _ => trivial⟩
    obtain ⟨node, -, rfl⟩ := List.mem_map.mp hmem
    exact allows_classifyUninstall

/-! ### Requests that read versions -/

/-- The thread read versions and nothing else. -/
structure Loc.Reads (loc loc' : Loc) (name : String) (versions : List ParsedPackage) : Prop where
  kept : loc.versions ⊆ loc'.versions
  read : versions ⊆ loc'.versions
  named : ∀ row ∈ versions, row.name = name

theorem requireVersions_meets (name : String) (loc : Loc) :
    meets formats (requireVersions name) (fun versions loc' =>
      loc.Reads loc' name (versions.getD [])) loc := by
  refine ⟨trivial, fun found _ => ?_⟩
  cases found with
  | false => exact ⟨List.Subset.refl _, List.nil_subset _, fun row hrow => by cases hrow⟩
  | true =>
    refine ⟨trivial, fun versions hnamed => ⟨?_, ?_, hnamed⟩⟩
    · exact List.subset_append_left _ _
    · exact List.subset_append_right _ _

theorem Loc.Reads.known {name : String} {versions : List ParsedPackage}
    (h : loc.Reads loc' name versions) {row : ParsedPackage} (hrow : row ∈ versions) :
    Known loc'.versions name ⟨row.version, row.sha256⟩ :=
  ⟨row, h.read hrow, h.named row hrow, rfl, rfl⟩

theorem publishedVersions_meets (name : String) (loc : Loc) :
    meets formats (publishedVersions name) (fun versions loc' => loc.Reads loc' name versions) loc :=
  (requireVersions_meets name loc).bind fun _ _ h => h

theorem install_meets (setup : Setup) (name : String) (body : InstallBody) (slots : Desired.Slots)
    (loc : Loc) :
    meets formats (install setup name body slots) (fun _ _ => True) loc := by
  unfold install
  split
  · trivial
  · refine (requireVersions_meets name loc).bind fun versions loc' hread => ?_
    split
    · trivial
    · next row hfind =>
      split
      · refine onDesired_meets (applyInstalls_allows fun plan hplan => ?_)
        cases List.mem_singleton.mp hplan
        obtain ⟨rows, rfl, hfind⟩ := Option.bind_eq_some_iff.mp hfind
        have hrow : row ∈ rows := List.mem_of_find?_eq_some hfind
        show Known loc'.versions row.name ⟨row.version, row.sha256⟩
        rw [hread.named row hrow]
        exact hread.known hrow
      · trivial

theorem rollback_meets (setup : Setup) (name : String) (toVersion : Option String)
    (slots : Desired.Slots) (loc : Loc) :
    meets formats (rollback setup name toVersion slots) (fun _ _ => True) loc := by
  unfold rollback
  split
  · trivial
  · refine (requireVersions_meets name loc).bind fun versions loc' hread => ?_
    cases versions with
    | none => trivial
    | some versions =>
      have hversions : ∀ record ∈ versions.map versionRecord,
          Known loc'.versions name ⟨record.version, record.sha256⟩ := by
        intro record hrecord
        obtain ⟨row, hrow, rfl⟩ := List.mem_map.mp hrecord
        exact hread.known hrow
      dsimp only
      split
      · refine onDesired_meets (rollback_allows ?_ hversions)
        intro record hrecord
        cases hrecord
      · next version _ =>
        cases hfind : versions.find? fun row => row.version == version with
        | none => trivial
        | some row =>
          refine onDesired_meets (rollback_allows ?_ hversions)
          intro record hrecord
          cases Option.mem_some.mp hrecord
          exact hread.known (List.mem_of_find?_eq_some hfind)

theorem mem_of_highestPublished {setup : Setup} {req : String} {versions : List ParsedPackage}
    {row : ParsedPackage} (h : highestPublished setup req versions = some row) :
    row ∈ versions := by
  refine (mem_of_foldl_select (fun best row => ?_) h).elim
    (fun hmem => (List.mem_filter.mp hmem).1) fun hnone => by cases hnone
  cases best with
  | none => exact .inl rfl
  | some best =>
    dsimp only
    split
    · exact .inr rfl
    · exact .inl rfl

theorem Known.mono {versions versions' : List ParsedPackage} {name : String} {row : Desired.Row}
    (h : Known versions name row) (hsub : versions ⊆ versions') : Known versions' name row := by
  obtain ⟨package, hpackage, hrow⟩ := h
  exact ⟨package, hsub hpackage, hrow⟩

theorem bundlePlans_meets (setup : Setup) (items : List BundleItem) (loc : Loc) :
    meets formats (bundlePlans setup items) (fun plans loc' => loc.versions ⊆ loc'.versions ∧
      ∀ plan ∈ plans.getD [], Known loc'.versions plan.skillName ⟨plan.version, plan.sha256⟩) loc := by
  have hnone : ∀ loc : Loc, ∀ plan ∈ (none : Option (List Desired.InstallPlan)).getD [],
      Known loc.versions plan.skillName ⟨plan.version, plan.sha256⟩ :=
    fun loc plan hplan => by cases hplan
  induction items generalizing loc with
  | nil => exact ⟨List.Subset.refl _, fun plan hplan => by cases hplan⟩
  | cons item items ih =>
    unfold bundlePlans
    split
    · exact ih loc
    · refine (publishedVersions_meets item.skillName loc).bind fun versions loc' hread => ?_
      split
      · exact ⟨hread.kept, hnone loc'⟩
      · next best hbest =>
        split
        · refine (ih loc').bind fun plans loc'' ⟨hsub, hplans⟩ => ⟨List.Subset.trans hread.kept hsub, ?_⟩
          cases plans with
          | none => exact hnone loc''
          | some plans =>
            intro plan hplan
            rcases List.mem_cons.mp hplan with rfl | hplan
            · have hrow := mem_of_highestPublished hbest
              have hknown := (hread.known hrow).mono hsub
              show Known loc''.versions best.name ⟨best.version, best.sha256⟩
              rw [hread.named best hrow]
              exact hknown
            · exact hplans plan hplan
        · exact ⟨hread.kept, hnone loc'⟩

theorem installBundle_meets (setup : Setup) (items : List BundleItem) (slots : Desired.Slots)
    (dryRun : Bool) (loc : Loc) :
    meets formats (installBundle setup items slots dryRun) (fun _ _ => True) loc := by
  refine (bundlePlans_meets setup items loc).bind fun plans loc' ⟨_, hplans⟩ => ?_
  cases plans with
  | none => trivial
  | some plans => exact onDesired_meets (applyInstalls_allows hplans)

theorem uninstall_meets (name : String) (slots : Desired.Slots) (force inUse : Bool) (loc : Loc) :
    meets formats (uninstall name slots force inUse) (fun _ _ => True) loc := by
  unfold uninstall
  split
  · trivial
  · refine (requireVersions_meets name loc).bind fun versions loc' _ => ?_
    cases versions with
    | none => trivial
    | some versions => exact onDesired_meets uninstall_allows

/-! ## The center -/

variable (setup : Setup)

theorem prog_meets (request : Request) :
    meets setup.formats (request.prog setup) (fun _ _ => True) (.fresh (some request)) := by
  cases request with
  | upload body => exact registerPackage_meets body
  | delete name version => exact deleteVersion_meets name version
  | install name body slots => exact install_meets setup name body slots _
  | rollback name toVersion slots => exact rollback_meets setup name toVersion slots _
  | installBundle items slots dryRun => exact installBundle_meets setup items slots dryRun _
  | uninstall name slots force inUse => exact uninstall_meets name slots force inUse _

theorem center_obeys : (center setup).Obeys (terms setup.formats) where
  exec t locs op elsewhere state reply state' _ h := by
    cases op with
    | loadVersions name =>
      cases h
      intro row hrow
      exact eq_of_beq (List.mem_filter.mp hrow).2
    | _ => trivial
  fire e sys sys' hsound h := by
    cases e with
    | start t request =>
      simp only [center, fire] at h
      split at h
      · cases h
        refine hsound.update ?_ _
        exact prog_meets setup request
      · cases h
    | abort t =>
      cases h
      refine hsound.update ?_ _
      trivial

theorem initial_sound (hosts : String → Skills.Host) :
    (center setup).Sound (terms setup.formats) (initial hosts) :=
  fun _ => trivial

end Novbot.Catalog
