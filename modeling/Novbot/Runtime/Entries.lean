import Mathlib.Data.List.Nodup
import Novbot.Lib.Checked
import Novbot.Lib.Lossy
import Novbot.Runtime.Listing

/-!
# Entries of a listing

`list_dir` once more, below a directory whose names are bytes and with the limits in their widths.
The loop returns the texts of a list of entries that does not depend on the limit of entries, up to
that limit (`listDir_lists`).
-/

namespace Novbot.Runtime.Entries

open Text FileTree Checked

/-! ## Trees -/

/-- A name as `read_dir` returns it. -/
structure OsName where
  bytes : List UInt8
  nonempty : bytes ≠ []
  not_here : bytes ≠ [0x2E]
  not_parent : bytes ≠ [0x2E, 0x2E]
  no_slash : 0x2F ∉ bytes
  deriving DecidableEq

abbrev OsPath := List OsName

/-- A link is not followed, so what it leads to is left out. -/
inductive OsTree where
  | file
  | dir (entries : List (OsName × OsTree))
  | link

abbrev OsEntries := List (OsName × OsTree)

def OsTree.isDir : OsTree → Bool
  | .dir _ => true
  | _ => false

def OsTree.child (name : OsName) : OsTree → Option OsTree
  | .dir entries => entries.lookup name
  | _ => none

/-- What is at a path below, with no link on the way. -/
def OsTree.descend : OsTree → OsPath → Option OsTree
  | tree, [] => some tree
  | tree, name :: path => (tree.child name).bind (descend · path)

/-- No directory below has a name twice. -/
def Distinct (entries : OsEntries) : Prop :=
  ∀ path inner, (OsTree.dir entries).descend path = some (.dir inner) → (inner.map (·.1)).Nodup

structure Directory where
  entries : OsEntries
  distinct : Distinct entries

/-! ## The loop -/

/-- `to_string_lossy`. -/
def OsName.toStringLossy (name : OsName) : List Char := fromUtf8Lossy name.bytes

structure Child where
  rel : List Char
  path : OsPath
  tree : OsTree

structure ListFrame where
  dir : OsPath
  pre : List Char
  depth : Nat

/-- The entries of a directory, in the order of their texts. -/
def children (dir : OsPath) (pre : List Char) (entries : OsEntries) : List Child :=
  (entries.map fun (name, tree) => ⟨joinRel pre name.toStringLossy, dir ++ [name], tree⟩).mergeSort
    fun left right => left.rel ≤ right.rel

section
variable (root : OsTree) (maxDepth maxEntries : Nat)

def readDir (dir : OsPath) : Except Errno OsEntries :=
  match root.descend dir with
  | some (.dir entries) => .ok entries
  | some _ => .error .notDirectory
  | none => .error .notFound

def listChildren (depth : Nat) :
    List Child → List (List Char) × List ListFrame → List (List Char) × List ListFrame
  | [], found => found
  | child :: rest, (out, nested) =>
    if asU32 out.length ≥ maxEntries then (out, nested)
    else
      listChildren depth rest (out ++ [child.rel],
        if child.tree.isDir && depth < maxDepth then nested ++ [⟨child.path, child.rel, depth + 1⟩]
        else nested)

/-- There is no result where the rounds do not suffice. -/
def listLoop : Nat → List ListFrame → List (List Char) → Option (Except Errno (List (List Char)))
  | 0, _, _ => none
  | _ + 1, [], out => some (.ok out)
  | fuel + 1, frame :: stack, out =>
    if asU32 out.length ≥ maxEntries then some (.ok out)
    else
      match readDir root frame.dir with
      | .error err => some (.error err)
      | .ok entries =>
        let (out, nested) :=
          listChildren maxDepth maxEntries frame.depth (children frame.dir frame.pre entries) (out, [])
        listLoop fuel (nested ++ stack) out

/-- `list_dir` of what is at the requested path. -/
def listDir (fuel : Nat) : Option (Except IoError (List (List Char))) :=
  if maxDepth = 0 ∨ maxEntries = 0 then some (.ok [])
  else
    match root with
    | .link => some (.error (.other "refusing to follow symlink"))
    | .file => some (.error (.other "not a directory"))
    | .dir _ => (listLoop root maxDepth maxEntries fuel [⟨[], [], 1⟩] []).map (·.mapError .os)

end

/-! ## The entries of a directory -/

/-- The entries at most `depth` names below a directory, in the order of the loop. -/
def below : Nat → OsPath → List Char → OsEntries → List Child
  | 0, _, _, _ => []
  | depth + 1, dir, pre, entries =>
    children dir pre entries ++ (children dir pre entries).flatMap fun child =>
      match child.tree with
      | .dir inner => below depth child.path child.rel inner
      | _ => []

/-- The text of a path below the requested directory. -/
def OsPath.text (path : OsPath) : List Char := relText (path.map (·.toStringLossy))

theorem mem_children {dir : OsPath} {pre : List Char} {entries : OsEntries} {child : Child} :
    child ∈ children dir pre entries ↔
      ∃ name tree, (name, tree) ∈ entries ∧
        child = ⟨joinRel pre name.toStringLossy, dir ++ [name], tree⟩ := by
  rw [children, List.mem_mergeSort, List.mem_map]
  constructor
  · rintro ⟨⟨name, tree⟩, hmem, rfl⟩
    exact ⟨name, tree, hmem, rfl⟩
  · rintro ⟨name, tree, hmem, rfl⟩
    exact ⟨(name, tree), hmem, rfl⟩

theorem mem_iff_lookup {entries : OsEntries} (h : (entries.map (·.1)).Nodup) {name : OsName}
    {tree : OsTree} : (name, tree) ∈ entries ↔ entries.lookup name = some tree := by
  induction entries with
  | nil => simp
  | cons entry entries ih =>
    obtain ⟨other, found⟩ := entry
    rw [List.map_cons, List.nodup_cons] at h
    rw [List.mem_cons, List.lookup_cons]
    by_cases hname : name = other
    · subst hname
      rw [beq_self_eq_true, Option.some.injEq]
      constructor
      · rintro (h' | hmem)
        · cases h'
          rfl
        · exact absurd (List.mem_map.mpr ⟨_, hmem, rfl⟩) h.1
      · rintro rfl
        exact .inl rfl
    · rw [beq_false_of_ne hname, ← ih h.2]
      constructor
      · rintro (h' | hmem)
        · cases h'
          exact absurd rfl hname
        · exact hmem
      · exact .inr

theorem Distinct.names {entries : OsEntries} (h : Distinct entries) : (entries.map (·.1)).Nodup :=
  h [] entries rfl

theorem Distinct.inner {entries inner : OsEntries} (h : Distinct entries) {name : OsName}
    (hmem : (name, .dir inner) ∈ entries) : Distinct inner := by
  intro path found hfound
  refine h (name :: path) found ?_
  show ((entries.lookup name).bind _) = _
  rw [(mem_iff_lookup h.names).mp hmem]
  exact hfound

/-- An entry is listed when it is at most so many names below. -/
theorem mem_below {depth : Nat} {dir path : OsPath} {pre : List Char} {entries : OsEntries}
    (hdistinct : Distinct entries) :
    path ∈ (below depth dir pre entries).map (·.path) ↔
      ∃ rel, rel ≠ [] ∧ rel.length ≤ depth ∧ ((OsTree.dir entries).descend rel).isSome = true ∧
        path = dir ++ rel := by
  induction depth generalizing dir path pre entries with
  | zero =>
    constructor
    · exact fun h => absurd h List.not_mem_nil
    · rintro ⟨rel, hne, hlen, -⟩
      exact absurd (List.length_eq_zero_iff.mp (Nat.le_zero.mp hlen)) hne
  | succ depth ih =>
    rw [below, List.map_append, List.mem_append, List.map_flatMap, List.mem_flatMap, List.mem_map]
    constructor
    · rintro (⟨child, hchild, rfl⟩ | ⟨child, hchild, hpath⟩)
      · obtain ⟨name, tree, hmem, rfl⟩ := mem_children.mp hchild
        refine ⟨[name], List.cons_ne_nil _ _, Nat.succ_le_succ (Nat.zero_le _), ?_, rfl⟩
        show ((entries.lookup name).bind (OsTree.descend · [])).isSome = true
        rw [(mem_iff_lookup hdistinct.names).mp hmem]
        rfl
      · obtain ⟨name, tree, hmem, rfl⟩ := mem_children.mp hchild
        cases tree with
        | file => cases hpath
        | link => cases hpath
        | dir inner =>
          obtain ⟨rel, hne, hlen, hsome, rfl⟩ := (ih (hdistinct.inner hmem)).mp hpath
          refine ⟨name :: rel, List.cons_ne_nil _ _, Nat.succ_le_succ hlen, ?_, ?_⟩
          · show ((entries.lookup name).bind (OsTree.descend · rel)).isSome = true
            rw [(mem_iff_lookup hdistinct.names).mp hmem]
            exact hsome
          · rw [List.append_assoc, List.singleton_append]
    · rintro ⟨rel, hne, hlen, hsome, rfl⟩
      cases rel with
      | nil => exact absurd rfl hne
      | cons name rel =>
        obtain ⟨found, hfound⟩ := Option.isSome_iff_exists.mp hsome
        obtain ⟨tree, htree, hfound⟩ := Option.bind_eq_some_iff.mp hfound
        have hmem : (name, tree) ∈ entries := (mem_iff_lookup hdistinct.names).mpr htree
        have hchild : ⟨joinRel pre name.toStringLossy, dir ++ [name], tree⟩ ∈ children dir pre entries :=
          mem_children.mpr ⟨name, tree, hmem, rfl⟩
        cases rel with
        | nil => exact .inl ⟨_, hchild, rfl⟩
        | cons next rel =>
          right
          refine ⟨_, hchild, ?_⟩
          cases tree with
          | file => cases hfound
          | link => cases hfound
          | dir inner =>
            refine (ih (hdistinct.inner hmem)).mpr
              ⟨next :: rel, List.cons_ne_nil _ _, Nat.le_of_succ_le_succ hlen, ?_, ?_⟩
            · rw [hfound]
              rfl
            · rw [List.append_assoc, List.singleton_append]

/-- The children of a directory are at different paths. -/
theorem nodup_children {dir : OsPath} {pre : List Char} {entries : OsEntries}
    (h : (entries.map (·.1)).Nodup) : ((children dir pre entries).map (·.path)).Nodup := by
  have hperm := (List.mergeSort_perm (entries.map fun (name, tree) =>
    (⟨joinRel pre name.toStringLossy, dir ++ [name], tree⟩ : Child))
    fun left right => left.rel ≤ right.rel).map (·.path)
  rw [children, hperm.nodup_iff, List.map_map]
  have hpaths : (entries.map ((·.path) ∘ fun (name, tree) =>
      (⟨joinRel pre name.toStringLossy, dir ++ [name], tree⟩ : Child))) =
      (entries.map (·.1)).map fun name => dir ++ [name] := by
    rw [List.map_map]
    rfl
  rw [hpaths]
  refine List.Nodup.map ?_ h
  intro name other hname
  simpa using hname

/-- No entry is listed twice. -/
theorem nodup_below {depth : Nat} {dir : OsPath} {pre : List Char} {entries : OsEntries}
    (hdistinct : Distinct entries) : ((below depth dir pre entries).map (·.path)).Nodup := by
  induction depth generalizing dir pre entries with
  | zero => exact List.nodup_nil
  | succ depth ih =>
    -- what is listed for a child is below the path of the child
    have hinner : ∀ child ∈ children dir pre entries, ∀ path,
        path ∈ (match child.tree with
          | .dir inner => below depth child.path child.rel inner
          | _ => []).map (fun child : Child => child.path) → ∃ rel, rel ≠ [] ∧ path = child.path ++ rel := by
      intro child hchild path hpath
      obtain ⟨name, tree, hmem, rfl⟩ := mem_children.mp hchild
      cases tree with
      | file => cases hpath
      | link => cases hpath
      | dir inner =>
        obtain ⟨rel, hne, -, -, hrel⟩ := (mem_below (hdistinct.inner hmem)).mp hpath
        exact ⟨rel, hne, hrel⟩
    rw [below, List.map_append, List.nodup_append, List.map_flatMap]
    refine ⟨nodup_children hdistinct.names, ?_, ?_⟩
    · rw [List.nodup_flatMap]
      constructor
      · intro child hchild
        obtain ⟨name, tree, hmem, rfl⟩ := mem_children.mp hchild
        cases tree with
        | file => exact List.nodup_nil
        | link => exact List.nodup_nil
        | dir inner => exact ih (hdistinct.inner hmem)
      · have hnodup := @nodup_children dir pre entries hdistinct.names
        rw [List.Nodup, List.pairwise_map] at hnodup
        refine hnodup.imp_of_mem fun {first second} hfirst hsecond hne => ?_
        intro path hpath hpath'
        obtain ⟨rel, -, hrel⟩ := hinner first hfirst path hpath
        obtain ⟨rel', -, hrel'⟩ := hinner second hsecond path hpath'
        obtain ⟨name, tree, -, rfl⟩ := mem_children.mp hfirst
        obtain ⟨name', tree', -, rfl⟩ := mem_children.mp hsecond
        rw [hrel, List.append_assoc, List.append_assoc, List.append_cancel_left_eq] at hrel'
        have hnames := (List.cons.inj hrel').1
        exact hne (by rw [hnames])
    · rintro path hpath _ hpath' rfl
      obtain ⟨child, hchild, rfl⟩ := List.mem_map.mp hpath
      obtain ⟨other, hother, hpath'⟩ := List.mem_flatMap.mp hpath'
      obtain ⟨rel, hne, hrel⟩ := hinner other hother _ hpath'
      obtain ⟨name, tree, -, rfl⟩ := mem_children.mp hchild
      obtain ⟨name', tree', -, rfl⟩ := mem_children.mp hother
      have hlen := congrArg List.length hrel
      have hpos := List.length_pos_iff.mpr hne
      simp only [List.length_append, List.length_singleton] at hlen
      omega

/-- The text of an entry is that of its path. -/
theorem rel_of_mem_below {depth : Nat} {dir : OsPath} {pre : List Char} {entries : OsEntries}
    (hpre : pre = OsPath.text dir) {child : Child} (h : child ∈ below depth dir pre entries) :
    child.rel = OsPath.text child.path := by
  induction depth generalizing dir pre entries with
  | zero => exact absurd h List.not_mem_nil
  | succ depth ih =>
    have hchild : ∀ child ∈ children dir pre entries, child.rel = OsPath.text child.path := by
      intro child hchild
      obtain ⟨name, tree, -, rfl⟩ := mem_children.mp hchild
      rw [hpre, OsPath.text, OsPath.text, List.map_append, relText, relText, List.foldl_append]
      rfl
    rw [below, List.mem_append, List.mem_flatMap] at h
    rcases h with h | ⟨parent, hparent, h⟩
    · exact hchild child h
    · cases htree : parent.tree with
      | file =>
        rw [htree] at h
        cases h
      | link =>
        rw [htree] at h
        cases h
      | dir inner =>
        rw [htree] at h
        exact ih (hchild parent hparent) h

/-! ## The loop over the stack -/

/-- A directory on the stack with its entries. -/
abbrev Visit := ListFrame × OsEntries

/-- What a visit lists. -/
def Visit.lists (maxDepth : Nat) (visit : Visit) : List Child :=
  below (maxDepth + 1 - visit.1.depth) visit.1.dir visit.1.pre visit.2

/-- The directories that the loop over `cs` goes on to. -/
def subvisits (maxDepth depth : Nat) : List Child → List Visit
  | [] => []
  | child :: cs =>
    match child.tree with
    | .dir inner =>
      if depth < maxDepth then
        (⟨child.path, child.rel, depth + 1⟩, inner) :: subvisits maxDepth depth cs
      else subvisits maxDepth depth cs
    | _ => subvisits maxDepth depth cs

/-- The rounds that a stack takes. -/
def rounds (maxDepth : Nat) : List Visit → Nat
  | [] => 0
  | visit :: stack => (visit.lists maxDepth).length + 1 + rounds maxDepth stack

theorem rounds_append (maxDepth : Nat) (stack more : List Visit) :
    rounds maxDepth (stack ++ more) = rounds maxDepth stack + rounds maxDepth more := by
  induction stack with
  | nil => simp [rounds]
  | cons visit stack ih =>
    rw [List.cons_append, rounds, rounds, ih]
    omega

theorem rounds_subvisits (maxDepth depth : Nat) (cs : List Child) :
    rounds maxDepth (subvisits maxDepth depth cs) ≤
      cs.length + ((subvisits maxDepth depth cs).flatMap (Visit.lists maxDepth)).length := by
  induction cs with
  | nil => exact Nat.le_refl _
  | cons child cs ih =>
    rw [subvisits, List.length_cons]
    cases child.tree with
    | file =>
      dsimp only
      omega
    | link =>
      dsimp only
      omega
    | dir inner =>
      dsimp only
      split
      · rw [rounds, List.flatMap_cons, List.length_append]
        omega
      · omega

theorem flatMap_below {maxDepth depth : Nat} (hdepth : depth ≤ maxDepth) (cs : List Child) :
    (cs.flatMap fun child =>
      match child.tree with
      | .dir inner => below (maxDepth - depth) child.path child.rel inner
      | _ => []) = (subvisits maxDepth depth cs).flatMap (Visit.lists maxDepth) := by
  induction cs with
  | nil => rfl
  | cons child cs ih =>
    rw [List.flatMap_cons, ih, subvisits]
    cases child.tree with
    | file => rfl
    | link => rfl
    | dir inner =>
      dsimp only
      split
      · have hnext : maxDepth - depth = maxDepth + 1 - (depth + 1) := by omega
        rw [List.flatMap_cons, Visit.lists, hnext]
      · next hlt =>
        have hzero : maxDepth - depth = 0 := by omega
        rw [hzero]
        rfl

/-- A visit lists its children, and then what their visits list. -/
theorem Visit.lists_eq {maxDepth : Nat} {visit : Visit} (hdepth : visit.1.depth ≤ maxDepth) :
    visit.lists maxDepth = children visit.1.dir visit.1.pre visit.2 ++
      (subvisits maxDepth visit.1.depth (children visit.1.dir visit.1.pre visit.2)).flatMap
        (Visit.lists maxDepth) := by
  rw [← flatMap_below hdepth, Visit.lists, Nat.succ_sub hdepth, below]

section
variable {root : OsTree} {maxDepth maxEntries : Nat}

theorem descend_concat (tree : OsTree) (path : OsPath) (name : OsName) :
    tree.descend (path ++ [name]) = (tree.descend path).bind (OsTree.child name) := by
  induction path generalizing tree with
  | nil =>
    show (tree.child name).bind (OsTree.descend · []) = tree.child name
    cases tree.child name <;> rfl
  | cons first path ih =>
    show (tree.child first).bind (OsTree.descend · (path ++ [name])) = _
    rw [OsTree.descend]
    cases tree.child first with
    | none => rfl
    | some next => exact ih next

/-- The entries of a visit are those of its directory. -/
def Visit.Reads (root : OsTree) (maxDepth : Nat) (visit : Visit) : Prop :=
  root.descend visit.1.dir = some (.dir visit.2) ∧ (visit.2.map (·.1)).Nodup ∧
    visit.1.depth ≤ maxDepth

theorem reads_subvisits {entries : OsEntries} (hdistinct : Distinct entries) {visit : Visit}
    (hreads : visit.Reads (.dir entries) maxDepth) {cs : List Child}
    (hcs : ∀ child ∈ cs, child ∈ children visit.1.dir visit.1.pre visit.2) :
    ∀ next ∈ subvisits maxDepth visit.1.depth cs, next.Reads (.dir entries) maxDepth := by
  induction cs with
  | nil => exact fun _ hnext => absurd hnext List.not_mem_nil
  | cons child cs ih =>
    have ih := ih fun child hchild => hcs child (.tail _ hchild)
    obtain ⟨name, tree, hmem, rfl⟩ := mem_children.mp (hcs child List.mem_cons_self)
    rw [subvisits]
    cases tree with
    | file => exact ih
    | link => exact ih
    | dir inner =>
      dsimp only
      split
      · next hdepth =>
        intro next hnext
        rcases List.mem_cons.mp hnext with rfl | hnext
        · have hfound : (OsTree.dir entries).descend (visit.1.dir ++ [name]) = some (.dir inner) := by
            rw [descend_concat, hreads.1]
            exact (mem_iff_lookup hreads.2.1).mp hmem
          exact ⟨hfound, hdistinct _ _ hfound, hdepth⟩
        · exact ih next hnext
      · exact ih

theorem listChildren_out (hlimit : maxEntries < 2 ^ 32) (depth : Nat) (cs : List Child)
    (out : List (List Char)) (nested : List ListFrame) (hout : out.length ≤ maxEntries) :
    (listChildren maxDepth maxEntries depth cs (out, nested)).1 =
      (out ++ cs.map (·.rel)).take maxEntries := by
  induction cs generalizing out nested with
  | nil => rw [listChildren, List.map_nil, List.append_nil, List.take_of_length_le hout]
  | cons child cs ih =>
    rw [listChildren, asU32_of (by omega)]
    split
    · next hfull => rw [List.take_append_of_le_length hfull, List.take_of_length_le hout]
    · next hroom =>
      rw [ih _ _ (by rw [List.length_append, List.length_singleton]; omega), List.map_cons,
        List.append_assoc, List.singleton_append]

theorem listChildren_nested (hlimit : maxEntries < 2 ^ 32) (depth : Nat) (cs : List Child)
    (out : List (List Char)) (nested : List ListFrame) (hout : out.length + cs.length ≤ maxEntries) :
    (listChildren maxDepth maxEntries depth cs (out, nested)).2 =
      nested ++ (subvisits maxDepth depth cs).map (·.1) := by
  induction cs generalizing out nested with
  | nil => simp [listChildren, subvisits]
  | cons child cs ih =>
    rw [List.length_cons] at hout
    rw [listChildren, asU32_of (by omega), if_neg (by omega),
      ih _ _ (by rw [List.length_append, List.length_singleton]; omega), subvisits]
    cases child.tree with
    | file => simp [OsTree.isDir]
    | link => simp [OsTree.isDir]
    | dir inner =>
      by_cases hdepth : depth < maxDepth
      · simp [OsTree.isDir, hdepth]
      · simp [OsTree.isDir, hdepth]

/-- Once there are enough entries, the loop ends. -/
theorem listLoop_full {fuel : Nat} (hfuel : 0 < fuel) (stack : List ListFrame)
    {out : List (List Char)} (hout : out.length = maxEntries) (hlimit : maxEntries < 2 ^ 32) :
    listLoop root maxDepth maxEntries fuel stack out = some (.ok out) := by
  obtain ⟨fuel, rfl⟩ := Nat.exists_eq_succ_of_ne_zero hfuel.ne'
  cases stack with
  | nil => rfl
  | cons frame stack => rw [listLoop, asU32_of (by omega), if_pos hout.ge]

/-- The loop lists what is on its stack. -/
theorem listLoop_eq {entries : OsEntries} (hdistinct : Distinct entries) (hlimit : maxEntries < 2 ^ 32)
    (fuel : Nat) (stack : List Visit) (out : List (List Char))
    (hreads : ∀ visit ∈ stack, visit.Reads (.dir entries) maxDepth)
    (hfuel : rounds maxDepth stack < fuel) (hout : out.length ≤ maxEntries) :
    listLoop (.dir entries) maxDepth maxEntries fuel (stack.map (·.1)) out =
      some (.ok ((out ++ (stack.flatMap (Visit.lists maxDepth)).map (·.rel)).take maxEntries)) := by
  induction fuel generalizing stack out with
  | zero => exact absurd hfuel (Nat.not_lt_zero _)
  | succ fuel ih =>
    cases stack with
    | nil => simp [listLoop, List.take_of_length_le hout]
    | cons visit stack =>
      have hvisit := hreads visit List.mem_cons_self
      rw [List.map_cons, listLoop, asU32_of (by omega)]
      split
      · next hfull => rw [List.take_append_of_le_length hfull, List.take_of_length_le hout]
      · have hread : readDir (.dir entries) visit.1.dir = .ok visit.2 := by rw [readDir, hvisit.1]
        rw [hread]
        show listLoop (.dir entries) maxDepth maxEntries fuel
          ((listChildren maxDepth maxEntries visit.1.depth _ (out, [])).2 ++ stack.map (·.1))
          (listChildren maxDepth maxEntries visit.1.depth _ (out, [])).1 = _
        rw [listChildren_out hlimit _ _ _ _ hout]
        rw [List.flatMap_cons, List.map_append, Visit.lists_eq hvisit.2.2, List.map_append]
        rw [rounds, Visit.lists_eq hvisit.2.2, List.length_append] at hfuel
        by_cases hroom : out.length + (children visit.1.dir visit.1.pre visit.2).length ≤ maxEntries
        · rw [listChildren_nested hlimit _ _ _ _ hroom, List.nil_append, ← List.map_append,
            List.take_of_length_le (by rwa [List.length_append, List.length_map]), ih]
          · rw [List.flatMap_append, List.map_append, List.append_assoc, List.append_assoc]
          · intro next hnext
            rcases List.mem_append.mp hnext with hnext | hnext
            · exact reads_subvisits hdistinct hvisit (fun _ hchild => hchild) next hnext
            · exact hreads next (.tail _ hnext)
          · have hsub := rounds_subvisits maxDepth visit.1.depth
              (children visit.1.dir visit.1.pre visit.2)
            rw [rounds_append]
            omega
          · rwa [List.length_append, List.length_map]
        · have hlong : maxEntries ≤
              (out ++ (children visit.1.dir visit.1.pre visit.2).map (·.rel)).length := by
            rw [List.length_append, List.length_map]
            omega
          rw [listLoop_full (by omega) _ (by rw [List.length_take, Nat.min_eq_left hlong]) hlimit,
            List.append_assoc (List.map _ _), ← List.append_assoc out,
            List.take_append_of_le_length hlong]

end

/-! ## What is returned -/

/-- Names that are UTF-8. -/
def OsPath.Utf8 (path : OsPath) : Prop := ∀ name ∈ path, ∃ text, name.bytes = utf8 text

theorem toStringLossy_utf8 {name : OsName} {text : List Char} (h : name.bytes = utf8 text) :
    name.toStringLossy = text := by
  rw [OsName.toStringLossy, h, fromUtf8Lossy_utf8]

/-- Such a name is one of a path of texts. -/
theorem plain_toStringLossy {name : OsName} {text : List Char} (h : name.bytes = utf8 text) :
    Plain name.toStringLossy ∧ '/' ∉ name.toStringLossy := by
  rw [toStringLossy_utf8 h]
  refine ⟨⟨?_, ?_, ?_⟩, ?_⟩
  · rintro rfl
    exact name.nonempty h
  · rintro rfl
    exact name.not_here h
  · rintro rfl
    exact name.not_parent h
  · intro hslash
    refine name.no_slash ?_
    rw [h, utf8, List.mem_flatMap]
    exact ⟨'/', hslash, by decide⟩

theorem path_of_texts {path other : OsPath} (hpath : path.Utf8) (hother : other.Utf8)
    (h : path.map (·.toStringLossy) = other.map (·.toStringLossy)) : path = other := by
  induction path generalizing other with
  | nil => exact (List.map_eq_nil_iff.mp h.symm).symm
  | cons name path ih =>
    cases other with
    | nil => cases h
    | cons name' other =>
      rw [List.map_cons, List.map_cons, List.cons.injEq] at h
      obtain ⟨text, htext⟩ := hpath name List.mem_cons_self
      obtain ⟨text', htext'⟩ := hother name' List.mem_cons_self
      rw [toStringLossy_utf8 htext, toStringLossy_utf8 htext'] at h
      have hname : name = name' := by
        rw [OsName.mk.injEq, htext, htext', h.1]
      rw [hname, ih (fun name hname => hpath name (.tail _ hname))
        (fun name hname => hother name (.tail _ hname)) h.2]

/-- A path of such names can be told from its text. -/
theorem text_inj {path other : OsPath} (hpath : path.Utf8) (hother : other.Utf8)
    (hne : path ≠ []) (hne' : other ≠ []) (h : path.text = other.text) : path = other := by
  have hsplit : ∀ {path : OsPath}, path.Utf8 → path ≠ [] →
      split '/' path.text = path.map (·.toStringLossy) := by
    intro path hpath hne
    refine split_joinRel (fun text htext => ?_) (List.map_eq_nil_iff.not.mpr hne)
    obtain ⟨name, hname, rfl⟩ := List.mem_map.mp htext
    obtain ⟨text, htext⟩ := hpath name hname
    exact plain_toStringLossy htext
  have hnames := hsplit hpath hne
  rw [h, hsplit hother hne'] at hnames
  exact path_of_texts hpath hother hnames.symm

/-- A listing returns the texts of the entries at most so many names below its directory and through
no link, in an order that the limit of entries has no part in, up to that limit.  Entries with names
in UTF-8 have different texts. -/
theorem listDir_lists (dir : Directory) (maxDepth : UInt8) :
    ∃ found : List OsPath, found.Nodup ∧
      (∀ path, path ∈ found ↔ path ≠ [] ∧ path.length ≤ maxDepth.toNat ∧
        ((OsTree.dir dir.entries).descend path).isSome = true) ∧
      (∀ maxEntries : UInt32, ∀ fuel > found.length + 1,
        listDir (.dir dir.entries) maxDepth.toNat maxEntries.toNat fuel =
          some (.ok ((found.map OsPath.text).take maxEntries.toNat))) ∧
      ∀ path ∈ found, ∀ other ∈ found, path.Utf8 → other.Utf8 → path.text = other.text →
        path = other := by
  have hmem : ∀ path, path ∈ (below maxDepth.toNat [] [] dir.entries).map (·.path) ↔
      path ≠ [] ∧ path.length ≤ maxDepth.toNat ∧
        ((OsTree.dir dir.entries).descend path).isSome = true := by
    intro path
    rw [mem_below dir.distinct]
    constructor
    · rintro ⟨rel, hne, hlen, hsome, rfl⟩
      exact ⟨hne, hlen, hsome⟩
    · rintro ⟨hne, hlen, hsome⟩
      exact ⟨path, hne, hlen, hsome, rfl⟩
  have htexts : ((below maxDepth.toNat [] [] dir.entries).map (·.path)).map OsPath.text =
      (below maxDepth.toNat [] [] dir.entries).map (·.rel) := by
    rw [List.map_map]
    refine List.map_congr_left fun child hchild => ?_
    exact (rel_of_mem_below rfl hchild).symm
  refine ⟨(below maxDepth.toNat [] [] dir.entries).map (·.path), nodup_below dir.distinct, hmem, ?_, ?_⟩
  · intro maxEntries fuel hfuel
    rw [htexts, listDir]
    split
    · next hnone =>
      rcases hnone with hnone | hnone
      · rw [hnone, below, List.map_nil, List.take_nil]
      · rw [hnone, List.take_zero]
    · next hasked =>
      rw [not_or] at hasked
      have hstart : Visit.lists maxDepth.toNat (⟨[], [], 1⟩, dir.entries) =
          below maxDepth.toNat [] [] dir.entries := rfl
      have hreads : ∀ visit ∈ [((⟨[], [], 1⟩, dir.entries) : Visit)],
          Visit.Reads (.dir dir.entries) maxDepth.toNat visit := by
        intro visit hvisit
        rw [List.mem_singleton.mp hvisit]
        exact ⟨rfl, dir.distinct.names, Nat.one_le_iff_ne_zero.mpr hasked.1⟩
      have hrounds : rounds maxDepth.toNat [((⟨[], [], 1⟩, dir.entries) : Visit)] < fuel := by
        rw [rounds, rounds, hstart]
        rw [List.length_map] at hfuel
        omega
      have hloop := listLoop_eq dir.distinct maxEntries.toNat_lt fuel _ [] hreads hrounds
        (Nat.zero_le _)
      rw [List.flatMap_singleton, hstart, List.nil_append] at hloop
      show (listLoop _ _ _ fuel [⟨[], [], 1⟩] []).map _ = _
      rw [List.map_cons, List.map_nil] at hloop
      rw [hloop]
      rfl
  · intro path hpath other hother hutf8 hutf8' htext
    exact text_inj hutf8 hutf8' ((hmem path).mp hpath).1 ((hmem other).mp hother).1 htext

end Novbot.Runtime.Entries
