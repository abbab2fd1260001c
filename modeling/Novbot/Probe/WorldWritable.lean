import Novbot.Probe.Outcome
import Mathlib.Data.List.Nodup
import Mathlib.Data.List.TakeWhile

/-!
# World-writable objects

`probe_compliance_world_writable` walks the directories below a root and reports every entry
whose mode lets others write.  The mode it asks for is the one of the entry itself, and that of
a link lets everybody write, so a link is reported too.  The findings are right exactly when the
links come after the budgets are used up (`worldWritable_exact_iff`).
-/

namespace Novbot.Probe

/-! ## Directories -/

/-- An object that holds no entries. -/
inductive Leaf where
  | file
  | device
  | fifo
  | socket
  | link (target : String)
  deriving DecidableEq, Repr

mutual

/-- A directory, in the order in which it lists its entries. -/
inductive Directory where
  | denied
  | listed (entries : Entries)

/-- The entries of a directory.  The mode is the one of the entry itself, where it can be
read. -/
inductive Entries where
  | done
  | failed (rest : Entries)
  | leaf (name : String) (kind : Leaf) (mode : Option Nat) (rest : Entries)
  | directory (name : String) (mode : Option Nat) (inner : Directory) (rest : Entries)

end

def Entries.names : Entries → List String
  | .done => []
  | .failed rest => rest.names
  | .leaf name _ _ rest => name :: rest.names
  | .directory name _ _ rest => name :: rest.names

/-- The name of an entry is one component of a path. -/
def IsName (name : String) : Prop := name ≠ "" ∧ '/' ∉ name.toList

mutual

/-- The names of a directory are different. -/
def Directory.WellFormed : Directory → Prop
  | .denied => True
  | .listed entries => entries.names.Nodup ∧ entries.WellFormed

def Entries.WellFormed : Entries → Prop
  | .done => True
  | .failed rest => rest.WellFormed
  | .leaf name _ _ rest => IsName name ∧ rest.WellFormed
  | .directory name _ inner rest => IsName name ∧ inner.WellFormed ∧ rest.WellFormed

end

/-- A directory tree. -/
structure Tree where
  directory : Directory
  wellFormed : directory.WellFormed

/-! ## The walk -/

/-- What the path of an entry begins with. -/
def base (dir : String) : String :=
  if dir = "" ∨ dir.toList.getLast? = some '/' then dir else dir ++ "/"

/-- `Path::join` of a directory and a name. -/
def join (dir name : String) : String := base dir ++ name

/-- `mode & 0o002 != 0`. -/
def othersWrite (mode : Nat) : Bool := mode.testBit 1

structure Limits where
  maxEntries : Nat
  maxFindings : Nat

structure Walk where
  scanned : Nat
  findings : List String

def Walk.full (limits : Limits) (walk : Walk) : Bool :=
  decide (limits.maxFindings ≤ walk.findings.length) || decide (limits.maxEntries ≤ walk.scanned)

/-- An entry is counted, and reported when others may write it. -/
def Walk.visit (path : String) (mode : Option Nat) (walk : Walk) : Walk :=
  ⟨walk.scanned + 1, if mode.any othersWrite then walk.findings ++ [path] else walk.findings⟩

mutual

def walkWorldWritable (limits : Limits) (dir : String) : Directory → Walk → Walk
  | .denied, walk => walk
  | .listed entries, walk =>
    if walk.full limits then walk else walkEntries limits dir entries walk

def walkEntries (limits : Limits) (dir : String) : Entries → Walk → Walk
  | .done, walk => walk
  | .failed rest, walk => walkEntries limits dir rest walk
  | .leaf name _ mode rest, walk =>
    if walk.full limits then walk
    else walkEntries limits dir rest (walk.visit (join dir name) mode)
  | .directory name mode inner rest, walk =>
    if walk.full limits then walk
    else
      let walk := walk.visit (join dir name) mode
      walkEntries limits dir rest
        (if mode.isSome then walkWorldWritable limits (join dir name) inner walk else walk)

end

/-! ## The probe -/

def rootParam (spec : Config.Spec) : String := textParam spec "root" "/etc"

def walkLimits (spec : Config.Spec) : Limits where
  maxEntries := max 100 (min 50000 (natParam spec "max_entries" 5000))
  maxFindings := max 1 (min 500 (natParam spec "max_findings" 50))

/-- The probe, on the directory at each path that exists. -/
def probeComplianceWorldWritable (trees : String → Option Tree) (spec : Config.Spec) :
    ProbeOutcome :=
  let root := rootParam spec
  match trees root with
  | none =>
    ⟨"fail", .obj [("check", .str "compliance_world_writable"), ("exists", .bool false),
      ("findings", strings ["root path missing: " ++ root]), ("passed", .bool false),
      ("root", .str root)]⟩
  | some tree =>
    let walk := walkWorldWritable (walkLimits spec) root tree.directory ⟨0, []⟩
    let passed := walk.findings.isEmpty
    ⟨passStatus passed, .obj [("check", .str "compliance_world_writable"),
      ("findings", strings (if passed then [] else walk.findings.map ("world-writable: " ++ ·))),
      ("passed", .bool passed), ("root", .str root),
      ("scanned_entries", .int walk.scanned), ("world_writable", strings walk.findings)]⟩

/-! ## Visits -/

/-- An entry that the walk comes to. -/
structure Visit where
  path : String
  mode : Option Nat
  link : Bool
  deriving DecidableEq

def Leaf.isLink : Leaf → Bool
  | .link _ => true
  | _ => false

mutual

/-- The entries below a directory, each before those that it holds. -/
def Directory.visits (dir : String) : Directory → List Visit
  | .denied => []
  | .listed entries => entries.visits dir

def Entries.visits (dir : String) : Entries → List Visit
  | .done => []
  | .failed rest => rest.visits dir
  | .leaf name kind mode rest => ⟨join dir name, mode, kind.isLink⟩ :: rest.visits dir
  | .directory name mode inner rest =>
    ⟨join dir name, mode, false⟩ ::
      ((if mode.isSome then inner.visits (join dir name) else []) ++ rest.visits dir)

end

/-- The mode bit that lets others write is set. -/
def Visit.bit (visit : Visit) : Bool := visit.mode.any othersWrite

/-- Others may write the object.  The mode of a link means nothing. -/
def Visit.writable (visit : Visit) : Bool := visit.bit && !visit.link

/-- The first findings of a kind among the first entries. -/
def within (limits : Limits) (kind : Visit → Bool) (visits : List Visit) : List Visit :=
  ((visits.take limits.maxEntries).filter kind).take limits.maxFindings

section

variable {limits : Limits}

def Walk.step (limits : Limits) (walk : Walk) (visit : Visit) : Walk :=
  if walk.full limits then walk else walk.visit visit.path visit.mode

theorem Walk.steps_full {walk : Walk} (h : walk.full limits = true) :
    ∀ visits : List Visit, visits.foldl (Walk.step limits) walk = walk
  | [] => rfl
  | visit :: visits => by
    rw [List.foldl_cons, Walk.step, if_pos h]
    exact Walk.steps_full h visits

mutual

/-- The walk takes the entries one by one. -/
theorem walkWorldWritable_eq : ∀ (inner : Directory) (dir : String) (walk : Walk),
    walkWorldWritable limits dir inner walk = (inner.visits dir).foldl (Walk.step limits) walk
  | .denied, _, _ => rfl
  | .listed entries, dir, walk => by
    rw [walkWorldWritable, Directory.visits]
    split
    · next hfull => exact (Walk.steps_full hfull _).symm
    · exact walkEntries_eq entries dir walk

theorem walkEntries_eq : ∀ (entries : Entries) (dir : String) (walk : Walk),
    walkEntries limits dir entries walk = (entries.visits dir).foldl (Walk.step limits) walk
  | .done, _, _ => rfl
  | .failed rest, dir, walk => by
    rw [walkEntries, Entries.visits]
    exact walkEntries_eq rest dir walk
  | .leaf name kind mode rest, dir, walk => by
    rw [walkEntries, Entries.visits, List.foldl_cons, Walk.step]
    split
    · next hfull => exact (Walk.steps_full hfull _).symm
    · exact walkEntries_eq rest dir _
  | .directory name mode inner rest, dir, walk => by
    rw [walkEntries, Entries.visits, List.foldl_cons, List.foldl_append, Walk.step]
    split
    · next hfull => rw [Walk.steps_full hfull, Walk.steps_full hfull]
    · dsimp only
      rw [walkEntries_eq rest]
      congr 1
      split
      · exact walkWorldWritable_eq inner _ _
      · rfl

end

/-- What the walk finds after some findings are there. -/
theorem findings_steps : ∀ (visits : List Visit) (walk : Walk),
    (visits.foldl (Walk.step limits) walk).findings = walk.findings ++
      (((visits.take (limits.maxEntries - walk.scanned)).filter Visit.bit).take
        (limits.maxFindings - walk.findings.length)).map Visit.path
  | [], walk => by simp
  | visit :: visits, walk => by
    rw [List.foldl_cons, findings_steps visits, Walk.step]
    cases hfull : walk.full limits with
    | true =>
      rw [if_pos rfl]
      rcases Bool.or_eq_true_iff.mp hfull with h | h
      · have hnone : limits.maxFindings - walk.findings.length = 0 :=
          Nat.sub_eq_zero_of_le (of_decide_eq_true h)
        rw [hnone, List.take_zero, List.take_zero]
      · have hnone : limits.maxEntries - walk.scanned = 0 :=
          Nat.sub_eq_zero_of_le (of_decide_eq_true h)
        rw [hnone, List.take_zero, List.take_zero]
    | false =>
      rw [if_neg Bool.false_ne_true]
      obtain ⟨hfindings, hscanned⟩ := Bool.or_eq_false_iff.mp hfull
      have hroom := not_le.mp (of_decide_eq_false hfindings)
      have hmore := not_le.mp (of_decide_eq_false hscanned)
      obtain ⟨entries, hentries⟩ := Nat.exists_eq_add_of_lt hmore
      obtain ⟨room, hfree⟩ := Nat.exists_eq_add_of_lt hroom
      have htake : limits.maxEntries - walk.scanned = entries + 1 := by omega
      have hrest : limits.maxEntries - (walk.scanned + 1) = entries := by omega
      have hfree' : limits.maxFindings - walk.findings.length = room + 1 := by omega
      rw [htake, List.take_succ_cons, List.filter_cons]
      dsimp only [Walk.visit]
      rw [hrest]
      cases hbit : visit.mode.any othersWrite with
      | true =>
        rw [if_pos rfl, if_pos (show visit.bit = true from hbit), hfree', List.take_succ_cons,
          List.length_append]
        have hlast : limits.maxFindings - (walk.findings.length + [visit.path].length) = room := by
          simp only [List.length_singleton]
          omega
        rw [hlast, List.map_cons, List.append_assoc, List.singleton_append]
      | false =>
        have hbit' : ¬ visit.bit = true := by rw [Visit.bit, hbit]; exact Bool.false_ne_true
        rw [if_neg Bool.false_ne_true, if_neg hbit']

theorem findings_eq (dir : String) (inner : Directory) :
    (walkWorldWritable limits dir inner ⟨0, []⟩).findings =
      (within limits Visit.bit (inner.visits dir)).map Visit.path := by
  rw [walkWorldWritable_eq, findings_steps]
  rfl

end

/-! ## Paths -/

/-- A path below the entry of a name. -/
def Under (dir name path : String) : Prop :=
  ∃ rest, path.toList = (base dir).toList ++ (name.toList ++ rest) ∧ ∀ c ∈ rest.head?, c = '/'

theorem under_join (dir name : String) : Under dir name (join dir name) := by
  refine ⟨[], ?_, fun c hc => by cases hc⟩
  rw [join, String.toList_append, List.append_nil]

theorem base_join {dir name : String} (h : IsName name) :
    base (join dir name) = join dir name ++ "/" := by
  rw [base, if_neg]
  rintro (hempty | hslash)
  · rw [join] at hempty
    exact h.1 (String.append_eq_empty_iff.mp hempty).2
  · obtain ⟨c, hc⟩ := Option.ne_none_iff_exists'.mp
      (mt List.getLast?_eq_none_iff.mp fun hnil => h.1 (String.toList_inj.mp hnil))
    rw [join, String.toList_append, List.getLast?_append, hc, Option.some_or] at hslash
    cases hslash
    exact h.2 (List.mem_of_getLast? hc)

/-- The paths below an entry of a directory are below the directory's entry. -/
theorem Under.of_join {dir name inner path : String} (hname : IsName name)
    (h : Under (join dir name) inner path) :
    Under dir name path ∧ path ≠ join dir name := by
  obtain ⟨rest, hpath, -⟩ := h
  rw [base_join hname, join] at hpath
  have hpath' : path.toList =
      (base dir).toList ++ (name.toList ++ ('/' :: (inner.toList ++ rest))) := by
    rw [hpath]
    simp
  refine ⟨⟨_, hpath', fun c hc => (Option.some.inj hc).symm⟩, ?_⟩
  rintro rfl
  have hlength := congrArg List.length hpath'
  rw [join, String.toList_append] at hlength
  simp only [List.length_append, List.length_cons] at hlength
  omega

theorem takeWhile_name {name : String} {rest : List Char} (hname : IsName name)
    (hrest : ∀ c ∈ rest.head?, c = '/') :
    (name.toList ++ rest).takeWhile (· != '/') = name.toList := by
  have hall : ∀ c ∈ name.toList, (c != '/') = true := by
    intro c hc
    exact bne_iff_ne.mpr fun heq => hname.2 (heq ▸ hc)
  rw [List.takeWhile_append_of_pos hall]
  cases rest with
  | nil => exact List.append_nil _
  | cons c rest =>
    cases hrest c rfl
    rw [List.takeWhile_cons_of_neg (by decide), List.append_nil]

/-- A path is below one entry of a directory. -/
theorem Under.unique {dir name name' path : String} (hname : IsName name) (hname' : IsName name')
    (h : Under dir name path) (h' : Under dir name' path) : name = name' := by
  obtain ⟨rest, hpath, hrest⟩ := h
  obtain ⟨rest', hpath', hrest'⟩ := h'
  have hsame := List.append_cancel_left (hpath.symm.trans hpath')
  have hfirst := congrArg (List.takeWhile (· != '/')) hsame
  rw [takeWhile_name hname hrest, takeWhile_name hname' hrest'] at hfirst
  exact String.toList_inj.mp hfirst

theorem isName_of_mem : ∀ (entries : Entries) {name : String},
    entries.WellFormed → name ∈ entries.names → IsName name
  | .failed rest, name, hwf, hmem => isName_of_mem rest hwf hmem
  | .leaf name' _ _ rest, name, hwf, hmem => by
    rcases List.mem_cons.mp hmem with rfl | hmem
    · exact hwf.1
    · exact isName_of_mem rest hwf.2 hmem
  | .directory name' _ inner rest, name, hwf, hmem => by
    rcases List.mem_cons.mp hmem with rfl | hmem
    · exact hwf.1
    · exact isName_of_mem rest hwf.2.2 hmem

mutual

/-- Every entry is below one of the directory. -/
theorem Directory.under_of_visits : ∀ (inner : Directory) {dir : String} {visit : Visit},
    inner.WellFormed → visit ∈ inner.visits dir → ∃ name, Under dir name visit.path
  | .denied, _, _, _, hmem => by cases hmem
  | .listed entries, _, _, hwf, hmem =>
    have ⟨name, _, hunder⟩ := Entries.under_of_visits entries hwf.2 hmem
    ⟨name, hunder⟩

theorem Entries.under_of_visits : ∀ (entries : Entries) {dir : String} {visit : Visit},
    entries.WellFormed → visit ∈ entries.visits dir →
      ∃ name ∈ entries.names, Under dir name visit.path
  | .done, _, _, _, hmem => by cases hmem
  | .failed rest, _, _, hwf, hmem => Entries.under_of_visits rest hwf hmem
  | .leaf name _ _ rest, dir, visit, hwf, hmem => by
    rcases List.mem_cons.mp hmem with rfl | hmem
    · exact ⟨name, List.mem_cons_self, under_join dir name⟩
    · obtain ⟨other, hother, hunder⟩ := Entries.under_of_visits rest hwf.2 hmem
      exact ⟨other, List.mem_cons_of_mem _ hother, hunder⟩
  | .directory name mode inner rest, dir, visit, hwf, hmem => by
    rcases List.mem_cons.mp hmem with rfl | hmem
    · exact ⟨name, List.mem_cons_self, under_join dir name⟩
    · rcases List.mem_append.mp hmem with hinner | hrest
      · split at hinner
        · obtain ⟨below, hbelow⟩ := Directory.under_of_visits inner hwf.2.1 hinner
          exact ⟨name, List.mem_cons_self, (hbelow.of_join hwf.1).1⟩
        · cases hinner
      · obtain ⟨other, hother, hunder⟩ := Entries.under_of_visits rest hwf.2.2 hrest
        exact ⟨other, List.mem_cons_of_mem _ hother, hunder⟩

end

/-- What is below an entry is not below the ones after it. -/
theorem not_mem_rest {dir name path : String} {rest : Entries} (hname : IsName name)
    (hfresh : name ∉ rest.names) (hwf : rest.WellFormed) (h : Under dir name path) :
    path ∉ (rest.visits dir).map Visit.path := by
  intro hmem
  obtain ⟨visit, hvisit, rfl⟩ := List.mem_map.mp hmem
  obtain ⟨other, hother, hunder⟩ := Entries.under_of_visits rest hwf hvisit
  exact hfresh (h.unique hname (isName_of_mem rest hwf hother) hunder ▸ hother)

mutual

/-- A path is visited once. -/
theorem Directory.nodup_visits : ∀ (inner : Directory) {dir : String},
    inner.WellFormed → ((inner.visits dir).map Visit.path).Nodup
  | .denied, _, _ => List.nodup_nil
  | .listed entries, _, hwf => Entries.nodup_visits entries hwf.1 hwf.2

theorem Entries.nodup_visits : ∀ (entries : Entries) {dir : String},
    entries.names.Nodup → entries.WellFormed → ((entries.visits dir).map Visit.path).Nodup
  | .done, _, _, _ => List.nodup_nil
  | .failed rest, _, hnodup, hwf => Entries.nodup_visits rest hnodup hwf
  | .leaf name _ _ rest, dir, hnodup, hwf => by
    obtain ⟨hfresh, hnodup⟩ := List.nodup_cons.mp hnodup
    rw [Entries.visits, List.map_cons, List.nodup_cons]
    exact ⟨not_mem_rest hwf.1 hfresh hwf.2 (under_join dir name),
      Entries.nodup_visits rest hnodup hwf.2⟩
  | .directory name mode inner rest, dir, hnodup, hwf => by
    obtain ⟨hfresh, hnodup⟩ := List.nodup_cons.mp hnodup
    have hrest : ((rest.visits dir).map Visit.path).Nodup :=
      Entries.nodup_visits rest hnodup hwf.2.2
    have hself := not_mem_rest hwf.1 hfresh hwf.2.2 (under_join dir name)
    rw [Entries.visits, List.map_cons, List.map_append, List.nodup_cons]
    split
    · have hinner : ((inner.visits (join dir name)).map Visit.path).Nodup :=
        Directory.nodup_visits inner hwf.2.1
      have hbelow : ∀ path ∈ (inner.visits (join dir name)).map Visit.path,
          Under dir name path ∧ path ≠ join dir name := by
        intro path hpath
        obtain ⟨visit, hvisit, rfl⟩ := List.mem_map.mp hpath
        obtain ⟨below, hunder⟩ := Directory.under_of_visits inner hwf.2.1 hvisit
        exact hunder.of_join hwf.1
      constructor
      · intro hmem
        rcases List.mem_append.mp hmem with hmem | hmem
        · exact (hbelow _ hmem).2 rfl
        · exact hself hmem
      · refine List.Nodup.append hinner hrest fun path hpath hother => ?_
        exact not_mem_rest hwf.1 hfresh hwf.2.2 (hbelow path hpath).1 hother
    · rw [List.map_nil, List.nil_append]
      exact ⟨hself, hrest⟩

end

/-! ## What is found -/

/-- The walk comes to a link only after its budgets are used up. -/
def LinksLate (limits : Limits) (visits : List Visit) : Prop :=
  ∀ before link after, visits = before ++ link :: after → link.link = true → link.bit = true →
    before.length < limits.maxEntries → limits.maxFindings ≤ (before.filter Visit.bit).length

/-- The probe finds the first objects that others may write, and passes when there are none. -/
structure WritableExact (trees : String → Option Tree) (spec : Config.Spec) (tree : Tree) :
    Prop where
  passes : (probeComplianceWorldWritable trees spec).status = "ok" ↔
    within (walkLimits spec) Visit.writable (tree.directory.visits (rootParam spec)) = []
  reported : (probeComplianceWorldWritable trees spec).payload.get "world_writable" =
    some (strings ((within (walkLimits spec) Visit.writable
      (tree.directory.visits (rootParam spec))).map Visit.path))

section

variable {limits : Limits} {trees : String → Option Tree} {spec : Config.Spec} {tree : Tree}

theorem LinksLate.tail {visit : Visit} {visits : List Visit} {entries findings : Nat}
    (h : LinksLate ⟨entries + 1, findings + 1⟩ (visit :: visits)) :
    LinksLate ⟨entries, if visit.bit then findings else findings + 1⟩ visits := by
  intro before link after hvisits hlink hbit hlength
  have hlate := h (visit :: before) link after (by rw [hvisits, List.cons_append]) hlink hbit
    (Nat.succ_lt_succ hlength)
  rw [List.filter_cons] at hlate
  cases hfirst : visit.bit with
  | true =>
    rw [if_pos hfirst] at hlate
    exact Nat.le_of_succ_le_succ hlate
  | false =>
    rw [if_neg (by rw [hfirst]; exact Bool.false_ne_true)] at hlate
    exact hlate

/-- No link is among the findings when the links come late. -/
theorem within_of_linksLate : ∀ {visits : List Visit} {entries findings : Nat},
    LinksLate ⟨entries, findings⟩ visits →
      within ⟨entries, findings⟩ Visit.bit visits = within ⟨entries, findings⟩ Visit.writable visits
  | [], entries, findings, _ => by simp [within]
  | visit :: visits, 0, findings, _ => by simp [within]
  | visit :: visits, entries + 1, 0, _ => by simp [within]
  | visit :: visits, entries + 1, findings + 1, hlate => by
    have htail := hlate.tail
    simp only [within, List.take_succ_cons, List.filter_cons]
    cases hbit : visit.bit with
    | true =>
      have hlink : visit.link = false := by
        by_contra hlink
        have hfull := hlate [] visit visits rfl (Bool.eq_true_of_not_eq_false hlink) hbit
          (Nat.succ_pos entries)
        exact absurd hfull (Nat.not_succ_le_zero findings)
      have hwritable : visit.writable = true := by rw [Visit.writable, hbit, hlink]; rfl
      rw [if_pos rfl, if_pos hwritable, List.take_succ_cons, List.take_succ_cons]
      rw [if_pos hbit] at htail
      exact congrArg (visit :: ·) (within_of_linksLate htail)
    | false =>
      have hwritable : visit.writable = false := by rw [Visit.writable, hbit]; rfl
      rw [hwritable, if_neg Bool.false_ne_true]
      rw [hbit, if_neg Bool.false_ne_true] at htail
      exact within_of_linksLate htail

theorem mem_within {kind : Visit → Bool} {before after : List Visit} {visit : Visit}
    (hkind : kind visit = true) (hentries : before.length < limits.maxEntries)
    (hfindings : (before.filter kind).length < limits.maxFindings) :
    visit ∈ within limits kind (before ++ visit :: after) := by
  obtain ⟨entries, hentries⟩ := Nat.exists_eq_add_of_lt hentries
  obtain ⟨findings, hfindings⟩ := Nat.exists_eq_add_of_lt hfindings
  have htake : (before ++ visit :: after).take limits.maxEntries =
      before ++ visit :: after.take entries := by
    rw [hentries, Nat.add_assoc, List.take_length_add_append, List.take_succ_cons]
  rw [within, htake, List.filter_append, List.filter_cons_of_pos hkind, hfindings, Nat.add_assoc,
    List.take_length_add_append, List.take_succ_cons]
  exact List.mem_append_right _ List.mem_cons_self

theorem within_sublist (kind : Visit → Bool) (visits : List Visit) :
    (within limits kind visits).Sublist (visits.filter kind) :=
  (List.take_sublist _ _).trans ((List.take_sublist _ _).filter kind)

/-- The findings are the right ones exactly when the links come late. -/
theorem within_eq_iff {visits : List Visit} (hnodup : (visits.map Visit.path).Nodup) :
    (within limits Visit.bit visits).map Visit.path =
      (within limits Visit.writable visits).map Visit.path ↔ LinksLate limits visits := by
  constructor
  · rintro hsame before link after rfl hlink hbit hlength
    by_contra hfull
    have hmem := @mem_within limits Visit.bit before after link hbit hlength (not_le.mp hfull)
    have hmem' := hsame ▸ List.mem_map_of_mem (f := Visit.path) hmem
    obtain ⟨visit, hvisit, hpath⟩ := List.mem_map.mp hmem'
    obtain ⟨hvisits, hwritable⟩ := List.mem_filter.mp ((within_sublist _ _).mem hvisit)
    have heq : visit = link := List.inj_on_of_nodup_map hnodup hvisits
      (List.mem_append_right _ List.mem_cons_self) hpath
    rw [heq, Visit.writable, hlink, Bool.not_true, Bool.and_false] at hwritable
    cases hwritable
  · exact fun hlate => congrArg (List.map Visit.path) (within_of_linksLate hlate)

/-- The probe is right about a tree exactly when it comes to no link within its budgets. -/
theorem worldWritable_exact_iff (h : trees (rootParam spec) = some tree) :
    WritableExact trees spec tree ↔
      LinksLate (walkLimits spec) (tree.directory.visits (rootParam spec)) := by
  have hnodup := @Directory.nodup_visits tree.directory (rootParam spec) tree.wellFormed
  have hfindings := @findings_eq (walkLimits spec) (rootParam spec) tree.directory
  have hreported : (probeComplianceWorldWritable trees spec).payload.get "world_writable" =
      some (strings ((within (walkLimits spec) Visit.bit
        (tree.directory.visits (rootParam spec))).map Visit.path)) := by
    rw [← hfindings, probeComplianceWorldWritable]
    dsimp only
    rw [h]
    rfl
  have hstatus : (probeComplianceWorldWritable trees spec).status = "ok" ↔
      (within (walkLimits spec) Visit.bit (tree.directory.visits (rootParam spec))).map Visit.path
        = [] := by
    rw [← hfindings, probeComplianceWorldWritable]
    dsimp only
    rw [h]
    exact passStatus_eq_ok.trans List.isEmpty_iff
  rw [← within_eq_iff hnodup]
  constructor
  · intro hexact
    exact strings_inj.mp (Option.some.inj (hreported.symm.trans hexact.reported))
  · intro hsame
    refine ⟨?_, ?_⟩
    · rw [hstatus, hsame, List.map_eq_nil_iff]
    · rw [hreported, hsame]

end

/-! ### A link -/

/-- A directory that holds a file for its owner and a link to it. -/
def linkedTree : Tree where
  directory := .listed (.leaf "hosts" .file (some 0o644) (.leaf "names" (.link "hosts") (some 0o777) .done))
  wellFormed := by
    refine ⟨by decide, ⟨?_, ?_⟩, ⟨?_, ?_⟩, trivial⟩ <;> decide

def linkedTrees (path : String) : Option Tree := if path = "/etc" then some linkedTree else none

def worldWritableSpec : Config.Spec := ⟨"writable", .complianceWorldWritable, .obj [], none⟩

theorem worldWritable_exact_iff_linked :
    WritableExact linkedTrees worldWritableSpec linkedTree ↔
      LinksLate (walkLimits worldWritableSpec)
        (linkedTree.directory.visits (rootParam worldWritableSpec)) :=
  worldWritable_exact_iff rfl

/-- The link is reported, and nobody but the owner may write the file. -/
theorem link_reported :
    ¬ ∀ trees spec tree, trees (rootParam spec) = some tree → WritableExact trees spec tree := by
  intro hall
  have hexact := hall linkedTrees worldWritableSpec linkedTree rfl
  have hok := hexact.passes.mpr (by decide)
  exact absurd hok (by decide)

end Novbot.Probe
