import Mathlib.Data.Char
import Mathlib.Data.List.Lex
import Novbot.Runtime.Deny

/-!
# Directory listings

`list_dir` of `novbot-skill-runtime/src/host.rs`.  The loop keeps the directories to visit
on a stack.  What it returns is the start of a recursive listing (`listDir_eq`), which has
a path for everything that is at most so many names below the directory (`mem_listing`).

A request is authorised for the directory it names and for nothing below.
`listing_safe_iff` says for which trees, grants and denylists that is enough.
-/

namespace Novbot.Runtime

open Text FileTree

structure Child where
  rel : List Char
  path : Path
  tree : Tree

structure ListFrame where
  dir : Path
  pre : List Char
  depth : Nat

/-- The name of an entry below a path, which may be empty. -/
def joinRel (pre name : List Char) : List Char := if pre = [] then name else pre ++ '/' :: name

def children (dir : Path) (pre : List Char) (entries : List (Name × Tree)) : List Child :=
  (entries.map fun (name, tree) => ⟨joinRel pre name, dir ++ [name], tree⟩).mergeSort
    fun left right => left.rel ≤ right.rel

section
variable (fs : FileSystem) (maxDepth maxEntries : Nat)

/-- The loop over the entries of a directory: the names so far, and the directories to
visit next. -/
def listChildren (depth : Nat) :
    List Child → List (List Char) × List ListFrame → List (List Char) × List ListFrame
  | [], found => found
  | child :: rest, (out, nested) =>
    if out.length ≥ maxEntries then (out, nested)
    else
      listChildren depth rest (out ++ [child.rel],
        if child.tree.isDir && depth < maxDepth then nested ++ [⟨child.path, child.rel, depth + 1⟩]
        else nested)

/-- The loop over the stack.  A directory is visited once, so that the number of
directories bounds the rounds. -/
def listLoop : Nat → List ListFrame → List (List Char) → Except Errno (List (List Char))
  | 0, _, out => .ok out
  | _ + 1, [], out => .ok out
  | fuel + 1, frame :: stack, out =>
    if out.length ≥ maxEntries then .ok out
    else do
      let entries ← fs.readDir frame.dir
      let (out, nested) :=
        listChildren maxDepth maxEntries frame.depth (children frame.dir frame.pre entries) (out, [])
      listLoop fuel (nested ++ stack) out

def listDir (dir : Path) : Except IoError (List (List Char)) :=
  if maxDepth = 0 ∨ maxEntries = 0 then .ok []
  else
    match fs.symlinkMetadata dir with
    | .error err => .error (.os err)
    | .ok (.link _) => .error (.other "refusing to follow symlink")
    | .ok (.file _) => .error (.other "not a directory")
    | .ok (.dir entries) =>
      (listLoop fs maxDepth maxEntries (Tree.dirs (.dir entries)) [⟨dir, [], 1⟩] []).mapError .os

end

/-! ## The listing of a tree -/

/-- The names below a directory, at most `depth` deep: first those in it, then those of its
directories in turn. -/
def listing : Nat → Path → List Char → List (Name × Tree) → List (List Char)
  | 0, _, _, _ => []
  | depth + 1, dir, pre, entries =>
    (children dir pre entries).map (·.rel) ++
      (children dir pre entries).flatMap fun child =>
        match child.tree with
        | .dir inner => listing depth child.path child.rel inner
        | _ => []

/-- The text of a path below a directory. -/
def relText (rel : Path) : List Char := rel.foldl joinRel []

theorem mem_children {dir : Path} {pre : List Char} {entries : List (Name × Tree)} {child : Child} :
    child ∈ children dir pre entries ↔
      ∃ name tree, (name, tree) ∈ entries ∧ child = ⟨joinRel pre name, dir ++ [name], tree⟩ := by
  rw [children, List.mem_mergeSort, List.mem_map]
  constructor
  · rintro ⟨⟨name, tree⟩, hmem, rfl⟩
    exact ⟨name, tree, hmem, rfl⟩
  · rintro ⟨name, tree, hmem, rfl⟩
    exact ⟨(name, tree), hmem, rfl⟩

/-- A listing has the text of every path at most `depth` names below its directory. -/
theorem mem_listing {depth : Nat} {dir : Path} {pre text : List Char}
    {entries : List (Name × Tree)} (hnamed : Tree.namedEntries entries = true) :
    text ∈ listing depth dir pre entries ↔
      ∃ rel, rel ≠ [] ∧ rel.length ≤ depth ∧ ((Tree.dir entries).descend rel).isSome = true ∧
        text = rel.foldl joinRel pre := by
  induction depth generalizing dir pre entries with
  | zero =>
    constructor
    · exact fun h => absurd h List.not_mem_nil
    · rintro ⟨rel, hne, hlen, -⟩
      exact absurd (List.length_eq_zero_iff.mp (Nat.le_zero.mp hlen)) hne
  | succ depth ih =>
    rw [listing, List.mem_append, List.mem_map, List.mem_flatMap]
    constructor
    · rintro (⟨child, hchild, rfl⟩ | ⟨child, hchild, htext⟩)
      · obtain ⟨name, tree, hmem, rfl⟩ := mem_children.mp hchild
        refine ⟨[name], List.cons_ne_nil _ _, Nat.succ_le_succ (Nat.zero_le _), ?_, rfl⟩
        show (((entries.lookup name).bind (Tree.descend · []))).isSome = true
        rw [(Tree.mem_iff_lookup hnamed).mp hmem]
        rfl
      · obtain ⟨name, tree, hmem, rfl⟩ := mem_children.mp hchild
        cases tree with
        | file content => cases htext
        | link target => cases htext
        | dir inner =>
          obtain ⟨rel, hne, hlen, hsome, htext⟩ := (ih (Tree.named_of_mem hnamed hmem).2.2).mp htext
          refine ⟨name :: rel, List.cons_ne_nil _ _, Nat.succ_le_succ hlen, ?_, htext⟩
          show (((entries.lookup name).bind (Tree.descend · rel))).isSome = true
          rw [(Tree.mem_iff_lookup hnamed).mp hmem]
          exact hsome
    · rintro ⟨rel, hne, hlen, hsome, rfl⟩
      cases rel with
      | nil => exact absurd rfl hne
      | cons name rel =>
        obtain ⟨found, hfound⟩ := Option.isSome_iff_exists.mp hsome
        obtain ⟨tree, htree, hfound⟩ := Option.bind_eq_some_iff.mp hfound
        have hmem : (name, tree) ∈ entries := (Tree.mem_iff_lookup hnamed).mpr htree
        have hchild : (⟨joinRel pre name, dir ++ [name], tree⟩ : Child) ∈ children dir pre entries :=
          mem_children.mpr ⟨name, tree, hmem, rfl⟩
        cases rel with
        | nil => exact .inl ⟨_, hchild, rfl⟩
        | cons next rel =>
          right
          refine ⟨_, hchild, ?_⟩
          cases tree with
          | file content => cases hfound
          | link target => cases hfound
          | dir inner =>
            refine (ih (Tree.named_of_mem hnamed hmem).2.2).mpr
              ⟨next :: rel, List.cons_ne_nil _ _, Nat.le_of_succ_le_succ hlen, ?_, rfl⟩
            rw [hfound]
            rfl

/-! ## The loop -/

/-- A directory on the stack with its entries. -/
abbrev Visit := ListFrame × List (Name × Tree)

/-- The entries are what the visit will read. -/
def Visit.Reads (fs : FileSystem) (visit : Visit) : Prop :=
  ∃ location, fs.canonicalize visit.1.dir = .ok location ∧
    fs.root.descend location = some (.dir visit.2)

/-- What a visit will list. -/
def Visit.lists (maxDepth : Nat) (visit : Visit) : List (List Char) :=
  listing (maxDepth + 1 - visit.1.depth) visit.1.dir visit.1.pre visit.2

/-- The directories that the loop over `cs` goes on to. -/
def subvisits (maxDepth depth : Nat) : List Child → List Visit
  | [] => []
  | child :: cs =>
    match child.tree with
    | .dir inner =>
      if depth < maxDepth then
        (⟨child.path, child.rel, depth + 1⟩, inner) :: subvisits maxDepth depth cs
      else subvisits maxDepth depth cs
    | _ => subvisits maxDepth depth cs

/-- The rounds that a stack takes. -/
def rounds : List Visit → Nat
  | [] => 0
  | visit :: stack => Tree.dirsEntries visit.2 + 1 + rounds stack

def childDirs : List Child → Nat
  | [] => 0
  | child :: cs => child.tree.dirs + childDirs cs

theorem rounds_append (stack more : List Visit) :
    rounds (stack ++ more) = rounds stack + rounds more := by
  induction stack with
  | nil => simp [rounds]
  | cons visit stack ih =>
    rw [List.cons_append, rounds, rounds, ih]
    omega

theorem rounds_subvisits (maxDepth depth : Nat) (cs : List Child) :
    rounds (subvisits maxDepth depth cs) ≤ childDirs cs := by
  induction cs with
  | nil => exact Nat.le_refl _
  | cons child cs ih =>
    rw [subvisits, childDirs]
    split
    · next inner htree =>
      rw [htree, Tree.dirs]
      split
      · rw [rounds]
        dsimp only
        omega
      · omega
    · omega

theorem childDirs_perm {cs cs' : List Child} (h : cs.Perm cs') : childDirs cs = childDirs cs' := by
  induction h with
  | nil => rfl
  | cons child _ ih => rw [childDirs, childDirs, ih]
  | swap first second cs =>
    simp only [childDirs]
    omega
  | trans _ _ ih ih' => exact ih.trans ih'

theorem childDirs_children (dir : Path) (pre : List Char) (entries : List (Name × Tree)) :
    childDirs (children dir pre entries) = Tree.dirsEntries entries := by
  rw [children, childDirs_perm (List.mergeSort_perm _ _)]
  induction entries with
  | nil => rfl
  | cons entry entries ih =>
    obtain ⟨name, tree⟩ := entry
    rw [List.map_cons, childDirs, ih, Tree.dirsEntries]

theorem listing_eq_subvisits {maxDepth depth : Nat} (hdepth : depth ≤ maxDepth) (cs : List Child) :
    (cs.flatMap fun child =>
      match child.tree with
      | .dir inner => listing (maxDepth - depth) child.path child.rel inner
      | _ => []) = (subvisits maxDepth depth cs).flatMap (Visit.lists maxDepth) := by
  induction cs with
  | nil => rfl
  | cons child cs ih =>
    rw [List.flatMap_cons, ih, subvisits]
    cases child.tree with
    | file content => rfl
    | link target => rfl
    | dir inner =>
      dsimp only
      split
      · have hnext : maxDepth - depth = maxDepth + 1 - (depth + 1) := by omega
        rw [List.flatMap_cons, Visit.lists, hnext]
      · next hlt =>
        have hzero : maxDepth - depth = 0 := by omega
        rw [hzero]
        rfl

section
variable {fs : FileSystem} {maxDepth maxEntries : Nat}

/-- The entries of a directory of the tree are read below it. -/
theorem reads_subvisits {visit : Visit} (hreads : visit.Reads fs) {cs : List Child}
    (hcs : ∀ child ∈ cs, ∃ name tree, (name, tree) ∈ visit.2 ∧
      child = ⟨joinRel visit.1.pre name, visit.1.dir ++ [name], tree⟩) :
    ∀ next ∈ subvisits maxDepth visit.1.depth cs,
      next.Reads fs ∧ next.1.depth ≤ maxDepth := by
  obtain ⟨location, hlocation, hdir⟩ := hreads
  have hnamed : (Tree.dir visit.2).named = true :=
    Tree.named_of_descend fs.named hdir
  induction cs with
  | nil => exact fun _ hnext => absurd hnext List.not_mem_nil
  | cons child cs ih =>
    have ih := ih fun child hchild => hcs child (List.mem_cons_of_mem _ hchild)
    obtain ⟨name, tree, hmem, rfl⟩ := hcs child (List.mem_cons_self ..)
    rw [subvisits]
    cases tree with
    | file content => exact ih
    | link target => exact ih
    | dir inner =>
      dsimp only
      split
      · next hdepth =>
        intro next hnext
        rcases List.mem_cons.mp hnext with rfl | hnext
        · have hentry := (Tree.mem_iff_lookup hnamed).mp hmem
          refine ⟨⟨location ++ [name], ?_, ?_⟩, hdepth⟩
          · exact walk_concat hlocation (Tree.named_of_mem hnamed hmem).1 hdir hentry rfl
          · rw [Tree.descend_concat, hdir]
            exact hentry
        · exact ih next hnext
      · exact ih

theorem listChildren_out (depth : Nat) (cs : List Child) (out : List (List Char))
    (nested : List ListFrame) (hout : out.length ≤ maxEntries) :
    (listChildren maxDepth maxEntries depth cs (out, nested)).1 =
      (out ++ cs.map (·.rel)).take maxEntries := by
  induction cs generalizing out nested with
  | nil =>
    rw [listChildren, List.map_nil, List.append_nil, List.take_of_length_le hout]
  | cons child cs ih =>
    rw [listChildren]
    split
    · next hfull =>
      rw [List.take_append_of_le_length hfull, List.take_of_length_le hout]
    · next hroom =>
      rw [ih _ _ (by rw [List.length_append, List.length_singleton]; omega), List.map_cons,
        List.append_assoc, List.singleton_append]

theorem listChildren_nested (depth : Nat) (cs : List Child) (out : List (List Char))
    (nested : List ListFrame) (hout : out.length + cs.length ≤ maxEntries) :
    (listChildren maxDepth maxEntries depth cs (out, nested)).2 =
      nested ++ (subvisits maxDepth depth cs).map (·.1) := by
  induction cs generalizing out nested with
  | nil => simp [listChildren, subvisits]
  | cons child cs ih =>
    rw [List.length_cons] at hout
    rw [listChildren, if_neg (by omega),
      ih _ _ (by rw [List.length_append, List.length_singleton]; omega), subvisits]
    cases child.tree with
    | file content => simp [Tree.isDir]
    | link target => simp [Tree.isDir]
    | dir inner =>
      by_cases hdepth : depth < maxDepth
      · simp [Tree.isDir, hdepth]
      · simp [Tree.isDir, hdepth]

/-- Once there are enough entries, the loop ends. -/
theorem listLoop_full (fuel : Nat) (stack : List ListFrame) {out : List (List Char)}
    (hout : maxEntries ≤ out.length) : listLoop fs maxDepth maxEntries fuel stack out = .ok out := by
  cases fuel with
  | zero => rfl
  | succ fuel =>
    cases stack with
    | nil => rfl
    | cons frame stack => rw [listLoop, if_pos hout]

/-- The loop lists what is on its stack. -/
theorem listLoop_eq (fuel : Nat) (stack : List Visit) (out : List (List Char))
    (hreads : ∀ visit ∈ stack, visit.Reads fs ∧ visit.1.depth ≤ maxDepth)
    (hfuel : rounds stack ≤ fuel) (hout : out.length ≤ maxEntries) :
    listLoop fs maxDepth maxEntries fuel (stack.map (·.1)) out =
      .ok ((out ++ stack.flatMap (Visit.lists maxDepth)).take maxEntries) := by
  induction fuel generalizing stack out with
  | zero =>
    cases stack with
    | nil => simp [listLoop, List.take_of_length_le hout]
    | cons visit stack =>
      rw [rounds] at hfuel
      omega
  | succ fuel ih =>
    cases stack with
    | nil => simp [listLoop, List.take_of_length_le hout]
    | cons visit stack =>
      obtain ⟨⟨location, hlocation, hdir⟩, hdepth⟩ := hreads visit (List.mem_cons_self ..)
      rw [List.map_cons, listLoop]
      split
      · next hfull =>
        rw [List.take_append_of_le_length hfull, List.take_of_length_le hout]
      · have hread : fs.readDir visit.1.dir = .ok visit.2 := by
          simp [FileSystem.readDir, hlocation, hdir, bind, Except.bind]
        rw [hread]
        show listLoop fs maxDepth maxEntries fuel
          ((listChildren maxDepth maxEntries visit.1.depth _ (out, [])).2 ++ stack.map (·.1))
          (listChildren maxDepth maxEntries visit.1.depth _ (out, [])).1 = _
        rw [listChildren_out _ _ _ _ hout]
        have hlists : visit.lists maxDepth =
            (children visit.1.dir visit.1.pre visit.2).map (·.rel) ++
              (subvisits maxDepth visit.1.depth
                (children visit.1.dir visit.1.pre visit.2)).flatMap (Visit.lists maxDepth) := by
          rw [← listing_eq_subvisits hdepth, Visit.lists, Nat.succ_sub hdepth, listing]
        rw [List.flatMap_cons, hlists]
        by_cases hroom : out.length + (children visit.1.dir visit.1.pre visit.2).length ≤ maxEntries
        · rw [listChildren_nested _ _ _ _ hroom, List.nil_append, ← List.map_append,
            List.take_of_length_le (by rwa [List.length_append, List.length_map]), ih]
          · rw [List.flatMap_append, List.append_assoc, List.append_assoc]
          · intro next hnext
            rcases List.mem_append.mp hnext with hnext | hnext
            · exact reads_subvisits ⟨location, hlocation, hdir⟩
                (fun child hchild => mem_children.mp hchild) next hnext
            · exact hreads next (List.mem_cons_of_mem _ hnext)
          · have hsub := rounds_subvisits maxDepth visit.1.depth
              (children visit.1.dir visit.1.pre visit.2)
            rw [childDirs_children] at hsub
            rw [rounds] at hfuel
            rw [rounds_append]
            omega
          · rwa [List.length_append, List.length_map]
        · have hfull : maxEntries ≤
              ((out ++ (children visit.1.dir visit.1.pre visit.2).map (·.rel)).take
                maxEntries).length := by
            rw [List.length_take, List.length_append, List.length_map]
            omega
          have hlong : maxEntries ≤
              (out ++ (children visit.1.dir visit.1.pre visit.2).map (·.rel)).length := by
            rw [List.length_append, List.length_map]
            omega
          rw [listLoop_full fuel _ hfull, List.append_assoc (List.map _ _), ← List.append_assoc out,
            List.take_append_of_le_length hlong]

/-- The loop from a directory lists it. -/
theorem listLoop_dir {dir location : Path} {entries : List (Name × Tree)}
    (hlocate : fs.locate dir = .ok location) (hdir : fs.root.descend location = some (.dir entries))
    (hdepth : maxDepth ≠ 0) :
    listLoop fs maxDepth maxEntries (Tree.dirs (.dir entries)) [⟨dir, [], 1⟩] [] =
      .ok ((listing maxDepth dir [] entries).take maxEntries) := by
  have hreads : ∀ visit ∈ [((⟨dir, [], 1⟩, entries) : Visit)],
      Visit.Reads fs visit ∧ visit.1.depth ≤ maxDepth := by
    intro visit hvisit
    rw [List.mem_singleton.mp hvisit]
    exact ⟨⟨location, walk_follow hlocate hdir rfl, hdir⟩, Nat.one_le_iff_ne_zero.mpr hdepth⟩
  have hrounds : rounds [((⟨dir, [], 1⟩, entries) : Visit)] ≤ Tree.dirs (.dir entries) :=
    Nat.le_refl _
  have hloop := @listLoop_eq fs maxDepth maxEntries _ _ [] hreads hrounds (Nat.zero_le _)
  simpa [Visit.lists] using hloop

/-- What a listing returns: nothing when nothing is asked for, and else the start of the
listing of the directory. -/
theorem listDir_cases {dir : Path} {found : List (List Char)}
    (h : listDir fs maxDepth maxEntries dir = .ok found) :
    found = [] ∨ ∃ location entries, fs.locate dir = .ok location ∧
      fs.root.descend location = some (.dir entries) ∧
      found = (listing maxDepth dir [] entries).take maxEntries := by
  unfold listDir at h
  split at h
  · cases h
    exact .inl rfl
  · next hasked =>
    rw [not_or] at hasked
    right
    cases hmeta : fs.symlinkMetadata dir with
    | error err =>
      rw [hmeta] at h
      cases h
    | ok tree =>
      rw [hmeta] at h
      obtain ⟨location, hlocation, hdir⟩ := descend_of_symlinkMetadata hmeta
      cases tree with
      | file content => cases h
      | link target => cases h
      | dir entries =>
        dsimp only at h
        rw [listLoop_dir hlocation hdir hasked.1] at h
        cases h
        exact ⟨location, entries, hlocation, hdir, rfl⟩

/-- Every start of the listing is returned for some request. -/
theorem listDir_of_dir {dir location : Path} {entries : List (Name × Tree)}
    (hlocate : fs.locate dir = .ok location) (hdir : fs.root.descend location = some (.dir entries))
    (hdepth : maxDepth ≠ 0) (hentries : maxEntries ≠ 0) :
    listDir fs maxDepth maxEntries dir = .ok ((listing maxDepth dir [] entries).take maxEntries) := by
  have hmeta : fs.symlinkMetadata dir = .ok (.dir entries) := by
    simp [FileSystem.symlinkMetadata, hlocate, hdir, bind, Except.bind]
  rw [listDir, if_neg (by rw [not_or]; exact ⟨hdepth, hentries⟩), hmeta]
  dsimp only
  rw [listLoop_dir hlocate hdir hdepth]
  rfl

end

/-! ## What a request may list -/

/-- The text of a path below a directory has its names as parts. -/
theorem split_joinRel {rel : Path} (hnames : ∀ name ∈ rel, Plain name ∧ '/' ∉ name)
    (hne : rel ≠ []) : split '/' (rel.foldl joinRel []) = rel := by
  have hrest : ∀ (rel : Path) (pre : List Char), pre ≠ [] → (∀ name ∈ rel, Plain name ∧ '/' ∉ name) →
      split '/' (rel.foldl joinRel pre) = split '/' pre ++ rel := by
    intro rel
    induction rel with
    | nil => simp
    | cons name rel ih =>
      intro pre hpre hnames
      have hjoin : joinRel pre name = pre ++ '/' :: name := if_neg hpre
      rw [List.foldl_cons, hjoin,
        ih _ (by simp) fun other hother => hnames other (List.mem_cons_of_mem _ hother),
        split_append, split_of_not_mem (hnames name (List.mem_cons_self ..)).2, List.append_assoc,
        List.singleton_append]
  cases rel with
  | nil => exact absurd rfl hne
  | cons name rel =>
    obtain ⟨⟨hname, -, -⟩, hslash⟩ := hnames name (List.mem_cons_self ..)
    have hjoin : joinRel [] name = name := if_pos rfl
    rw [List.foldl_cons, hjoin,
      hrest rel name hname fun other hother => hnames other (List.mem_cons_of_mem _ hother),
      split_of_not_mem hslash, List.singleton_append]

section
variable (fs : FileSystem) (grants : GrantSet) (denylist : Denylist) (raw : String)

/-- `list` of an allowed path. -/
def listAllowed (maxDepth maxEntries : Nat) (resolved : Resolved) :
    Except HostError (List (List Char)) :=
  if resolved.finalSymlink then .error (.io "refusing to follow symlink")
  else (listDir fs maxDepth maxEntries resolved.own).mapError ioError

/-- `list`, below the limit of denials. -/
def listCall (maxDepth maxEntries : Nat) : Except HostError (List (List Char)) :=
  match authorizeFs fs grants denylist "fs.list" raw true with
  | .deny reason target => .error (witDenial "fs.list" target reason)
  | .allow resolved => listAllowed fs maxDepth maxEntries resolved

/-- The path is in a directory that a grant covers, and the denylist refuses neither the
path nor a directory that it is in. -/
def SafeEntry (path : Path) : Prop :=
  grants.pathMatches fs "fs.list" path.dropLast = true ∧
    ∀ start, start <+: path → denylist.deniesFs start = false

/-- Whatever a request for the directory returns is safe, at the place where it is. -/
def ListingSafe (maxDepth : Nat) : Prop :=
  ∀ maxEntries found, listCall fs grants denylist raw maxDepth maxEntries = .ok found →
    ∀ resolved location, resolve fs raw.toList = some resolved →
      fs.locate resolved.own = .ok location →
      ∀ entry ∈ found, SafeEntry fs grants denylist (location ++ split '/' entry)

/-- When the directory is allowed, everything at most so many names below it is safe. -/
def SafeBelow (maxDepth : Nat) : Prop :=
  ∀ resolved location entries,
    authorizeFs fs grants denylist "fs.list" raw true = .allow resolved →
    fs.locate resolved.own = .ok location → fs.root.descend location = some (.dir entries) →
    ∀ rel, rel ≠ [] → rel.length ≤ maxDepth →
      (fs.root.descend (location ++ rel)).isSome = true →
      SafeEntry fs grants denylist (location ++ rel)

end

section
variable {fs : FileSystem} {grants : GrantSet} {denylist : Denylist} {raw : String}
  {maxDepth : Nat}

theorem resolve_of_allow {capability : String} {useTarget : Bool} {resolved : Resolved}
    (h : authorizeFs fs grants denylist capability raw useTarget = .allow resolved) :
    resolve fs raw.toList = some resolved := by
  unfold authorizeFs at h
  split at h
  · cases h
  · split at h
    · cases h
    · cases hresolve : resolve fs raw.toList with
      | none =>
        rw [hresolve] at h
        cases h
      | some found =>
        rw [hresolve] at h
        dsimp only at h
        split at h
        · cases h
        · split at h
          · cases h
            rfl
          · cases h

/-- A resolved path ends in a symbolic link when there is one at its place. -/
theorem resolve_final {text : List Char} {resolved : Resolved}
    (h : resolve fs text = some resolved) :
    (∃ target, fs.symlinkMetadata resolved.own = .ok (.link target)) ∧
        resolved.finalSymlink = true ∨
      (∀ target, fs.symlinkMetadata resolved.own ≠ .ok (.link target)) ∧
        resolved.finalSymlink = false ∧ resolved.scope = resolved.own := by
  unfold resolve at h
  split at h
  · cases h
  · cases hlexical : lexicalNormalize text with
    | none =>
      rw [hlexical] at h
      cases h
    | some lexical =>
      rw [hlexical] at h
      dsimp only at h
      split at h
      · next target hlink =>
        split at h
        · cases h
          exact .inl ⟨⟨target, hlink⟩, rfl⟩
        · cases h
          exact .inl ⟨⟨target, hlink⟩, rfl⟩
      · next hlink =>
        cases h
        exact .inr ⟨hlink, rfl, rfl⟩

/-- What is below a directory is found from the root as from the directory. -/
theorem descend_below {location : Path} {entries : List (Name × Tree)}
    (hdir : fs.root.descend location = some (.dir entries)) (rel : Path) :
    fs.root.descend (location ++ rel) = (Tree.dir entries).descend rel := by
  rw [Tree.descend_append, hdir]
  rfl

theorem listingSafe_iff :
    ListingSafe fs grants denylist raw maxDepth ↔ SafeBelow fs grants denylist raw maxDepth := by
  constructor
  · intro hsafe resolved location entries hallow hlocate hdir rel hne hlen hsome
    have hnamed : (Tree.dir entries).named = true :=
      Tree.named_of_descend fs.named hdir
    rw [descend_below hdir] at hsome
    have hmem : rel.foldl joinRel [] ∈ listing maxDepth resolved.own [] entries :=
      (mem_listing hnamed).mpr ⟨rel, hne, hlen, hsome, rfl⟩
    have hmeta : fs.symlinkMetadata resolved.own = .ok (.dir entries) := by
      simp [FileSystem.symlinkMetadata, hlocate, hdir, bind, Except.bind]
    have hfinal : resolved.finalSymlink = false := by
      obtain ⟨⟨target, hlink⟩, -⟩ | ⟨-, hfinal, -⟩ := resolve_final (resolve_of_allow hallow)
      · rw [hmeta] at hlink
        cases hlink
      · exact hfinal
    have hcall : listCall fs grants denylist raw maxDepth
        (listing maxDepth resolved.own [] entries).length =
        .ok (listing maxDepth resolved.own [] entries) := by
      rw [listCall, hallow]
      dsimp only
      rw [listAllowed, hfinal, if_neg (by simp), listDir_of_dir hlocate hdir, List.take_length]
      · rfl
      · rintro rfl
        exact hne (List.length_eq_zero_iff.mp (Nat.le_zero.mp hlen))
      · exact Nat.ne_of_gt (List.length_pos_of_mem hmem)
    obtain ⟨found, hfound⟩ := Option.isSome_iff_exists.mp hsome
    have hentry := hsafe _ _ hcall resolved location (resolve_of_allow hallow) hlocate _ hmem
    rwa [split_joinRel (Tree.names_of_descend hnamed hfound) hne] at hentry
  · intro hbelow maxEntries found hcall resolved location hresolve hlocate entry hentry
    unfold listCall at hcall
    cases hauth : authorizeFs fs grants denylist "fs.list" raw true with
    | deny reason target =>
      rw [hauth] at hcall
      cases hcall
    | allow allowed =>
      rw [hauth] at hcall
      have hsame := resolve_of_allow hauth
      rw [hresolve] at hsame
      cases hsame
      dsimp only at hcall
      unfold listAllowed at hcall
      split at hcall
      · cases hcall
      · have hlist : listDir fs maxDepth maxEntries resolved.own = .ok found := by
          cases hlist : listDir fs maxDepth maxEntries resolved.own with
          | error err =>
            rw [hlist] at hcall
            cases hcall
          | ok listed =>
            rw [hlist] at hcall
            cases hcall
            rfl
        obtain rfl | ⟨place, entries, hplace, hdir, rfl⟩ := listDir_cases hlist
        · cases hentry
        · rw [hlocate] at hplace
          cases hplace
          have hnamed : (Tree.dir entries).named = true :=
            Tree.named_of_descend fs.named hdir
          obtain ⟨rel, hne, hlen, hsome, rfl⟩ := (mem_listing hnamed).mp (List.mem_of_mem_take hentry)
          obtain ⟨inner, hinner⟩ := Option.isSome_iff_exists.mp hsome
          rw [split_joinRel (Tree.names_of_descend hnamed hinner) hne]
          refine hbelow resolved location entries hauth hlocate hdir rel hne hlen ?_
          rw [descend_below hdir, hinner]
          rfl

end

/-- When what a request returns is safe, however many entries it asks for. -/
theorem listing_safe_iff (fs : FileSystem) (grants : GrantSet) (denylist : Denylist) (raw : String)
    (maxDepth : Nat) :
    ListingSafe fs grants denylist raw maxDepth ↔ SafeBelow fs grants denylist raw maxDepth :=
  listingSafe_iff

/-! ## A listing on a fixed tree -/

/-- A private key below `/etc`. -/
def keyTree : FileSystem where
  entries := [("etc".toList, .dir [("ssl".toList, .dir [("private".toList,
    .dir [("key.pem".toList, .file (some []))])])])]
  named := by decide

def etcGrants : GrantSet := ⟨[("fs.list", [.path "/etc"])]⟩

theorem key_listed : ¬ ListingSafe keyTree etcGrants ⟨[]⟩ "/etc" 3 := by
  rw [listingSafe_iff]
  intro hbelow
  have hallow : authorizeFs keyTree etcGrants ⟨[]⟩ "fs.list" "/etc" true =
      .allow ⟨["etc".toList], ["etc".toList], false, false⟩ := by decide +kernel
  have hentry := hbelow _ ["etc".toList] _ hallow rfl rfl
    ["ssl".toList, "private".toList, "key.pem".toList] (by decide) (by decide) rfl
  have hdenied : Denylist.deniesFs ⟨[]⟩
      ["etc".toList, "ssl".toList, "private".toList, "key.pem".toList] = true := by decide +kernel
  have hnot := hentry.2 _ (List.prefix_refl _)
  exact absurd (hdenied.symm.trans hnot) (by decide)

end Novbot.Runtime
