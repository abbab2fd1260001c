import Mathlib.Data.List.Basic
import Novbot.Lib.Text

/-!
# File trees

A tree of files, directories and symbolic links, and the resolution of a path in it
(`walk`): links on the way are followed up to a number of links, and the last component is
followed or not.  A path that goes through directories only, by plain names, is where it
says (`Real`).  A walk that follows every link ends at such a path (`real_of_walk`), and a
walk along such a path stays on it (`walk_of_real`).
-/

namespace FileTree

abbrev Name := List Char

/-- The components of an absolute path. -/
abbrev Path := List Name

inductive Errno where
  | notFound
  | permissionDenied
  | notDirectory
  | isDirectory
  | tooManyLinks
  deriving DecidableEq, Repr

/-- A file that cannot be read has no content. -/
inductive Tree where
  | file (content : Option (List UInt8))
  | dir (entries : List (Name × Tree))
  | link (target : List Char)

namespace Tree

def isDir : Tree → Bool
  | .dir _ => true
  | _ => false

def isLink : Tree → Bool
  | .link _ => true
  | _ => false

def child (name : Name) : Tree → Option Tree
  | .dir entries => entries.lookup name
  | _ => none

/-- What is at a path, with no link on the way. -/
def descend : Tree → Path → Option Tree
  | tree, [] => some tree
  | tree, name :: path => (tree.child name).bind (descend · path)

theorem descend_append (tree : Tree) (path rest : Path) :
    tree.descend (path ++ rest) = (tree.descend path).bind (descend · rest) := by
  induction path generalizing tree with
  | nil => rfl
  | cons name path ih =>
    show (tree.child name).bind (descend · (path ++ rest)) = _
    simp only [descend]
    cases tree.child name with
    | none => rfl
    | some next => exact ih next

theorem descend_concat (tree : Tree) (path : Path) (name : Name) :
    tree.descend (path ++ [name]) = (tree.descend path).bind (child name) := by
  rw [descend_append]
  cases tree.descend path with
  | none => rfl
  | some next =>
    show (next.child name).bind (descend · []) = next.child name
    cases next.child name <;> rfl

end Tree

/-! ## Names -/

/-- A name that is not a step up or a step in place. -/
def Plain (name : Name) : Prop := name ≠ [] ∧ name ≠ ['.'] ∧ name ≠ ['.', '.']

instance (name : Name) : Decidable (Plain name) :=
  inferInstanceAs (Decidable (name ≠ [] ∧ name ≠ ['.'] ∧ name ≠ ['.', '.']))

namespace Tree

mutual

/-- Every directory has distinct names, which are components of paths. -/
def named : Tree → Bool
  | .dir entries => namedEntries entries
  | _ => true

def namedEntries : List (Name × Tree) → Bool
  | [] => true
  | (name, tree) :: entries =>
    (entries.lookup name).isNone && decide (Plain name) && !name.contains '/' && named tree &&
      namedEntries entries

end

mutual

/-- The number of directories. -/
def dirs : Tree → Nat
  | .dir entries => dirsEntries entries + 1
  | _ => 0

def dirsEntries : List (Name × Tree) → Nat
  | [] => 0
  | (_, tree) :: entries => dirs tree + dirsEntries entries

end

/-- In a directory, a name is found where it is. -/
theorem mem_iff_lookup {entries : List (Name × Tree)} (h : namedEntries entries = true)
    {name : Name} {tree : Tree} :
    (name, tree) ∈ entries ↔ entries.lookup name = some tree := by
  induction entries with
  | nil => simp
  | cons entry entries ih =>
    obtain ⟨first, inner⟩ := entry
    simp only [namedEntries, Bool.and_eq_true, Option.isNone_iff_eq_none] at h
    obtain ⟨⟨⟨⟨hnew, -⟩, -⟩, -⟩, hrest⟩ := h
    rw [List.mem_cons, List.lookup_cons, ih hrest]
    by_cases hname : name = first
    · subst hname
      rw [beq_self_eq_true, hnew]
      simp [eq_comm]
    · rw [beq_eq_false_iff_ne.mpr hname]
      simp [hname]

theorem named_of_mem {entries : List (Name × Tree)} (h : namedEntries entries = true)
    {name : Name} {tree : Tree} (hmem : (name, tree) ∈ entries) :
    Plain name ∧ '/' ∉ name ∧ tree.named = true := by
  induction entries with
  | nil => cases hmem
  | cons entry entries ih =>
    obtain ⟨first, inner⟩ := entry
    simp only [namedEntries, Bool.and_eq_true, decide_eq_true_eq, Bool.not_eq_true',
      List.contains_eq_mem, decide_eq_false_iff_not] at h
    obtain ⟨⟨⟨⟨-, hplain⟩, hslash⟩, hinner⟩, hrest⟩ := h
    rcases List.mem_cons.mp hmem with hmem | hmem
    · cases hmem
      exact ⟨hplain, hslash, hinner⟩
    · exact ih hrest hmem

theorem named_of_descend {tree found : Tree} (h : tree.named = true) {path : Path}
    (hfound : tree.descend path = some found) : found.named = true := by
  induction path generalizing tree with
  | nil =>
    cases hfound
    exact h
  | cons name path ih =>
    obtain ⟨next, hnext, hfound⟩ := Option.bind_eq_some_iff.mp hfound
    refine ih ?_ hfound
    cases tree with
    | file content => cases hnext
    | link target => cases hnext
    | dir entries => exact (named_of_mem h ((mem_iff_lookup h).mpr hnext)).2.2

/-- The names on the way to what is in a tree. -/
theorem names_of_descend {tree found : Tree} (h : tree.named = true) {path : Path}
    (hfound : tree.descend path = some found) : ∀ name ∈ path, Plain name ∧ '/' ∉ name := by
  induction path generalizing tree with
  | nil => exact fun _ hname => absurd hname List.not_mem_nil
  | cons first path ih =>
    obtain ⟨next, hnext, hrest⟩ := Option.bind_eq_some_iff.mp hfound
    cases tree with
    | file content => cases hnext
    | link target => cases hnext
    | dir entries =>
      obtain ⟨hplain, hslash, hnamed⟩ := named_of_mem h ((mem_iff_lookup h).mpr hnext)
      intro name hname
      rcases List.mem_cons.mp hname with rfl | hname
      · exact ⟨hplain, hslash⟩
      · exact ih hnamed hrest name hname

end Tree

/-! ## Walks -/

/-- Where a walk without links ends. -/
inductive Stop where
  | arrived (path : Path)
  | failed (err : Errno)
  /-- At a link in the directory `base`, with what is left of the path. -/
  | followed (base : Path) (target : List Char) (rest : List Name)

/-- Follows the components of a path up to the first link. -/
def advance (root : Tree) (follow : Bool) : Path → List Name → Stop
  | base, [] => .arrived base
  | base, name :: rest =>
    match root.descend base with
    | some (.dir entries) =>
      if name = [] ∨ name = ['.'] then advance root follow base rest
      else if name = ['.', '.'] then advance root follow base.dropLast rest
      else
        match entries.lookup name with
        | none => .failed .notFound
        | some (.link target) =>
          if rest = [] ∧ follow = false then .arrived (base ++ [name])
          else .followed base target rest
        | some _ => advance root follow (base ++ [name]) rest
    | _ => .failed .notDirectory

/-- The components of a link's target. -/
def components (target : List Char) : List Name := Text.split '/' target

/-- Where a link starts: at the root, or in the directory it is in. -/
def linkBase (base : Path) (target : List Char) : Path :=
  if target.head? = some '/' then [] else base

/-- Resolves a path, with at most `links` links. -/
def walk (root : Tree) (follow : Bool) : Nat → Path → List Name → Except Errno Path
  | links, base, todo =>
    match advance root follow base todo with
    | .arrived path => .ok path
    | .failed err => .error err
    | .followed base target rest =>
      match links with
      | 0 => .error .tooManyLinks
      | links + 1 =>
        if target = [] then .error .notFound
        else walk root follow links (linkBase base target) (components target ++ rest)

/-! ## Real paths -/

/-- A path that goes through directories by plain names, to something that is no link. -/
inductive Real (root : Tree) : Path → Prop where
  | root : Real root []
  | concat {path : Path} {name : Name} {entries : List (Name × Tree)} {tree : Tree} :
    Real root path → Plain name → root.descend path = some (.dir entries) →
    entries.lookup name = some tree → tree.isLink = false → Real root (path ++ [name])

variable {root : Tree}

theorem Real.parent {path : Path} {name : Name} (h : Real root (path ++ [name])) :
    Real root path := by
  generalize hpath : path ++ [name] = whole at h
  cases h with
  | root => simp at hpath
  | concat hparent _ _ _ _ =>
    obtain ⟨rfl, -⟩ := List.append_inj' hpath rfl
    exact hparent

theorem Real.dropLast {path : Path} (h : Real root path) : Real root path.dropLast := by
  cases h with
  | root => exact .root
  | concat hparent _ _ _ _ => rwa [List.dropLast_concat]

theorem Real.plain {path : Path} (h : Real root path) : ∀ name ∈ path, Plain name := by
  induction h with
  | root => exact fun _ hname => absurd hname List.not_mem_nil
  | concat _ hplain _ _ _ ih =>
    intro name hname
    rcases List.mem_append.mp hname with hname | hname
    · exact ih name hname
    · rw [List.mem_singleton.mp hname]
      exact hplain

/-- Something is at a real path, and it is no link. -/
theorem Real.descend (hroot : root.isLink = false) {path : Path} (h : Real root path) :
    ∃ tree, root.descend path = some tree ∧ tree.isLink = false := by
  cases h with
  | root => exact ⟨root, rfl, hroot⟩
  | @concat path name entries tree _ _ hdir hentry htree =>
    refine ⟨tree, ?_, htree⟩
    rw [Tree.descend_concat, hdir]
    exact hentry

/-- The path of a stop is real. -/
def Stop.Inside (root : Tree) : Stop → Prop
  | .arrived path => Real root path
  | .failed _ => True
  | .followed base _ _ => Real root base

theorem advance_inside {base : Path} {todo : List Name} (hbase : Real root base) :
    (advance root true base todo).Inside root := by
  induction todo generalizing base with
  | nil => exact hbase
  | cons name todo ih =>
    rw [advance]
    split
    · next entries hdir =>
      split
      · exact ih hbase
      · next hhere =>
        split
        · exact ih hbase.dropLast
        · next hup =>
          split
          · trivial
          · rw [if_neg (by simp)]
            exact hbase
          · next tree hlink hentry =>
            have hplain : Plain name := by
              rw [not_or] at hhere
              exact ⟨hhere.1, hhere.2, hup⟩
            have htree : tree.isLink = false := by
              cases tree with
              | link target => exact absurd rfl (hlink target)
              | file content => rfl
              | dir entries => rfl
            exact ih (.concat hbase hplain hdir hentry htree)
    · trivial

/-- A walk that ends does so without links, or after its first link. -/
theorem walk_cases {follow : Bool} {links : Nat} {base path : Path} {todo : List Name}
    (h : walk root follow links base todo = .ok path) :
    advance root follow base todo = .arrived path ∨
      ∃ inside target rest fewer, advance root follow base todo = .followed inside target rest ∧
        links = fewer + 1 ∧
        walk root follow fewer (linkBase inside target) (components target ++ rest) = .ok path := by
  rw [walk] at h
  cases hstop : advance root follow base todo with
  | arrived found =>
    rw [hstop] at h
    cases h
    exact .inl rfl
  | failed err =>
    rw [hstop] at h
    cases h
  | followed inside target rest =>
    rw [hstop] at h
    cases links with
    | zero => cases h
    | succ fewer =>
      dsimp only at h
      split at h
      · cases h
      · exact .inr ⟨inside, target, rest, fewer, rfl, rfl, h⟩

/-- A walk that follows every link ends at a real path. -/
theorem real_of_walk {links : Nat} {base path : Path} {todo : List Name} (hbase : Real root base)
    (h : walk root true links base todo = .ok path) : Real root path := by
  induction links generalizing base todo with
  | zero =>
    have hinside : (advance root true base todo).Inside root := advance_inside hbase
    obtain hstop | ⟨_, _, _, fewer, _, hlinks, _⟩ := walk_cases h
    · rwa [hstop] at hinside
    · cases hlinks
  | succ links ih =>
    have hinside : (advance root true base todo).Inside root := advance_inside hbase
    obtain hstop | ⟨inside, target, rest, fewer, hstop, hlinks, hrest⟩ := walk_cases h
    · rwa [hstop] at hinside
    · cases hlinks
      rw [hstop] at hinside
      refine ih ?_ hrest
      unfold linkBase
      split
      · exact .root
      · exact hinside

/-- One plain name in a directory. -/
theorem advance_name {path : Path} {name : Name} {entries : List (Name × Tree)} {tree : Tree}
    (follow : Bool) (hplain : Plain name) (hdir : root.descend path = some (.dir entries))
    (hentry : entries.lookup name = some tree) (hlink : tree.isLink = false) {rest : List Name} :
    advance root follow path (name :: rest) = advance root follow (path ++ [name]) rest := by
  obtain ⟨hempty, hhere, hup⟩ := hplain
  conv_lhs => rw [advance]
  rw [hdir]
  dsimp only
  rw [if_neg (by rw [not_or]; exact ⟨hempty, hhere⟩), if_neg hup, hentry]
  cases tree with
  | link target => cases hlink
  | file content => rfl
  | dir entries => rfl

/-- Along a real path, a walk does not stop before its end. -/
theorem advance_of_real {path : Path} (h : Real root path) (follow : Bool) (todo : List Name) :
    advance root follow [] (path ++ todo) = advance root follow path todo := by
  induction h generalizing todo with
  | root => rfl
  | @concat path name entries tree _ hplain hdir hentry htree ih =>
    rw [List.append_assoc, ih, List.singleton_append]
    exact advance_name follow hplain hdir hentry htree

theorem walk_of_real {path : Path} (h : Real root path) (follow : Bool) (links : Nat) :
    walk root follow links [] path = .ok path := by
  have hadvance := advance_of_real h follow []
  rw [List.append_nil] at hadvance
  rw [walk, hadvance]
  rfl

/-! ## Longer walks -/

/-- A walk goes on where a shorter one stopped, which followed its last component. -/
theorem advance_append (follow : Bool) (base : Path) (todo : List Name) {more : List Name}
    (hmore : more ≠ []) :
    advance root follow base (todo ++ more) =
      match advance root true base todo with
      | .arrived path => advance root follow path more
      | .failed err => .failed err
      | .followed inside target rest => .followed inside target (rest ++ more) := by
  induction todo generalizing base with
  | nil => rfl
  | cons name todo ih =>
    rw [List.cons_append, advance, advance]
    split
    · split
      · exact ih base
      · split
        · exact ih base.dropLast
        · split
          · rfl
          · rw [if_neg (fun h => hmore (List.append_eq_nil_iff.mp h.1).2),
              if_neg (fun h => Bool.noConfusion h.2)]
          · exact ih _
    · rfl

/-- A walk fails where a shorter one does, and else goes on from its end with the links
that it has left. -/
theorem walk_append (links : Nat) (base : Path) (todo : List Name) :
    (∃ err, walk root true links base todo = .error err ∧ ∀ follow more, more ≠ [] →
      walk root follow links base (todo ++ more) = .error err) ∨
    ∃ dir left, walk root true links base todo = .ok dir ∧ ∀ follow more, more ≠ [] →
      walk root follow links base (todo ++ more) = walk root follow left dir more := by
  induction links generalizing base todo with
  | zero =>
    rw [walk]
    cases hstop : advance root true base todo with
    | arrived dir =>
      refine .inr ⟨dir, 0, rfl, fun follow more hmore => ?_⟩
      rw [walk, walk, advance_append follow base todo hmore, hstop]
    | failed err =>
      refine .inl ⟨err, rfl, fun follow more hmore => ?_⟩
      rw [walk, advance_append follow base todo hmore, hstop]
    | followed inside target rest =>
      refine .inl ⟨_, rfl, fun follow more hmore => ?_⟩
      rw [walk, advance_append follow base todo hmore, hstop]
  | succ links ih =>
    rw [walk]
    cases hstop : advance root true base todo with
    | arrived dir =>
      refine .inr ⟨dir, links + 1, rfl, fun follow more hmore => ?_⟩
      rw [walk, walk, advance_append follow base todo hmore, hstop]
    | failed err =>
      refine .inl ⟨err, rfl, fun follow more hmore => ?_⟩
      rw [walk, advance_append follow base todo hmore, hstop]
    | followed inside target rest =>
      dsimp only
      by_cases htarget : target = []
      · rw [if_pos htarget]
        refine .inl ⟨_, rfl, fun follow more hmore => ?_⟩
        rw [walk, advance_append follow base todo hmore, hstop]
        exact if_pos htarget
      · have hnext : ∀ follow more, more ≠ [] →
            walk root follow (links + 1) base (todo ++ more) = walk root follow links
              (linkBase inside target) ((components target ++ rest) ++ more) := by
          intro follow more hmore
          rw [walk, advance_append follow base todo hmore, hstop, List.append_assoc]
          exact if_neg htarget
        rw [if_neg htarget]
        obtain ⟨err, hfails, hmore⟩ | ⟨dir, left, hdir, hmore⟩ :=
          ih (linkBase inside target) (components target ++ rest)
        · exact .inl ⟨err, hfails, fun follow more hne =>
            (hnext follow more hne).trans (hmore follow more hne)⟩
        · exact .inr ⟨dir, left, hdir, fun follow more hne =>
            (hnext follow more hne).trans (hmore follow more hne)⟩

theorem walk_append_of_ok {links : Nat} {base dir : Path} {todo : List Name}
    (h : walk root true links base todo = .ok dir) :
    ∃ left, ∀ follow more, more ≠ [] →
      walk root follow links base (todo ++ more) = walk root follow left dir more := by
  obtain ⟨err, hfails, -⟩ | ⟨found, left, hfound, hmore⟩ := walk_append links base todo
  · rw [h] at hfails
    cases hfails
  · rw [h] at hfound
    cases hfound
    exact ⟨left, hmore⟩

theorem walk_append_ok {links : Nat} {follow : Bool} {base found : Path} {todo more : List Name}
    (hmore : more ≠ []) (h : walk root follow links base (todo ++ more) = .ok found) :
    ∃ dir left, walk root true links base todo = .ok dir ∧
      walk root follow left dir more = .ok found := by
  obtain ⟨err, -, hfails⟩ | ⟨dir, left, hdir, hnext⟩ := walk_append links base todo
  · rw [hfails follow more hmore] at h
    cases h
  · rw [hnext follow more hmore] at h
    exact ⟨dir, left, hdir, h⟩

/-- From where a walk ended, a name in the directory there is one step more. -/
theorem walk_concat {links : Nat} {base path : Path} {todo : List Name}
    (h : walk root true links base todo = .ok path) {name : Name} (hplain : Plain name)
    {entries : List (Name × Tree)} {tree : Tree} (hdir : root.descend path = some (.dir entries))
    (hentry : entries.lookup name = some tree) (hlink : tree.isLink = false) :
    walk root true links base (todo ++ [name]) = .ok (path ++ [name]) := by
  obtain ⟨left, hnext⟩ := walk_append_of_ok h
  rw [hnext true [name] (List.cons_ne_nil _ _), walk, advance_name true hplain hdir hentry hlink]
  rfl

/-- One plain name: it is in a directory, and a walk that does not follow it ends there. -/
theorem walk_name {links : Nat} {follow : Bool} {dir found : Path} {name : Name}
    (hplain : Plain name) (h : walk root follow links dir [name] = .ok found) :
    ∃ entries tree, root.descend dir = some (.dir entries) ∧ entries.lookup name = some tree ∧
      (follow = false → found = dir ++ [name]) := by
  obtain ⟨hempty, hhere, hup⟩ := hplain
  rw [walk, advance] at h
  cases hdir : root.descend dir with
  | none =>
    rw [hdir] at h
    cases h
  | some tree =>
    rw [hdir] at h
    cases tree with
    | file content => cases h
    | link target => cases h
    | dir entries =>
      dsimp only at h
      rw [if_neg (by rw [not_or]; exact ⟨hempty, hhere⟩), if_neg hup] at h
      cases hentry : entries.lookup name with
      | none =>
        rw [hentry] at h
        cases h
      | some tree =>
        refine ⟨entries, tree, rfl, hentry, ?_⟩
        rintro rfl
        rw [hentry] at h
        cases tree with
        | link target =>
          dsimp only at h
          rw [if_pos ⟨rfl, rfl⟩] at h
          cases h
          rfl
        | file content =>
          cases h
          rfl
        | dir inner =>
          cases h
          rfl

/-- A walk that ends goes through the directory of its last name. -/
theorem walk_parent {links : Nat} {follow : Bool} {base found : Path} {todo : List Name}
    {name : Name} (hplain : Plain name)
    (h : walk root follow links base (todo ++ [name]) = .ok found) :
    ∃ dir entries tree, walk root true links base todo = .ok dir ∧
      root.descend dir = some (.dir entries) ∧ entries.lookup name = some tree ∧
      (follow = false → found = dir ++ [name]) := by
  obtain ⟨dir, left, hdir, hname⟩ := walk_append_ok (List.cons_ne_nil _ _) h
  obtain ⟨entries, tree, hentries, htree, hfound⟩ := walk_name hplain hname
  exact ⟨dir, entries, tree, hdir, hentries, htree, hfound⟩

/-- The last component of a path in a real directory, when a walk does not follow it. -/
theorem walk_in_real {path found : Path} (h : Real root path) {name : Name} (hplain : Plain name)
    {links : Nat} (hwalk : walk root false links [] (path ++ [name]) = .ok found) :
    found = path ++ [name] := by
  obtain ⟨dir, _, _, hdir, -, -, hfound⟩ := walk_parent hplain hwalk
  rw [walk_of_real h true links] at hdir
  cases hdir
  exact hfound rfl

/-- A name in the directory that a walk ends in is found there when it is not followed. -/
theorem walk_into {links : Nat} {base dir : Path} {todo : List Name}
    (h : walk root true links base todo = .ok dir) {name : Name} (hplain : Plain name)
    {entries : List (Name × Tree)} {tree : Tree} (hdir : root.descend dir = some (.dir entries))
    (hentry : entries.lookup name = some tree) :
    walk root false links base (todo ++ [name]) = .ok (dir ++ [name]) := by
  obtain ⟨left, hnext⟩ := walk_append_of_ok h
  obtain ⟨hempty, hhere, hup⟩ := hplain
  rw [hnext false [name] (List.cons_ne_nil _ _), walk, advance, hdir]
  dsimp only
  rw [if_neg (by rw [not_or]; exact ⟨hempty, hhere⟩), if_neg hup, hentry]
  cases tree with
  | link target =>
    dsimp only
    rw [if_pos ⟨rfl, rfl⟩]
  | file content => rfl
  | dir entries => rfl

/-- A walk that ends at something that is no link ends there when it follows every link. -/
theorem advance_follow {base : Path} {todo : List Name} :
    (∀ path tree, advance root false base todo = .arrived path → root.descend path = some tree →
      tree.isLink = false → advance root true base todo = .arrived path) ∧
    ∀ inside target rest, advance root false base todo = .followed inside target rest →
      advance root true base todo = .followed inside target rest := by
  induction todo generalizing base with
  | nil => exact ⟨fun _ _ h _ _ => h, fun _ _ _ h => h⟩
  | cons name todo ih =>
    rw [advance, advance]
    split
    · next entries hdir =>
      split
      · exact ih
      · split
        · exact ih
        · split
          · exact ⟨fun _ _ h _ _ => h, fun _ _ _ h => h⟩
          · next target hentry =>
            rw [if_neg (by simp : ¬ (todo = [] ∧ true = false))]
            split
            · constructor
              · intro path tree h hfound hlink
                cases h
                rw [Tree.descend_concat, hdir] at hfound
                have hsame : some tree = some (.link target) := hfound.symm.trans hentry
                cases hsame
                cases hlink
              · intro inside target rest h
                cases h
            · refine ⟨?_, fun _ _ _ h => h⟩
              intro path tree h
              cases h
          · exact ih
    · exact ⟨fun _ _ h _ _ => h, fun _ _ _ h => h⟩

theorem walk_follow {links : Nat} {base path : Path} {todo : List Name}
    (h : walk root false links base todo = .ok path) {tree : Tree}
    (hfound : root.descend path = some tree) (hlink : tree.isLink = false) :
    walk root true links base todo = .ok path := by
  induction links generalizing base todo with
  | zero =>
    obtain hstop | ⟨_, _, _, _, _, hlinks, _⟩ := walk_cases h
    · rw [walk, advance_follow.1 _ _ hstop hfound hlink]
    · cases hlinks
  | succ links ih =>
    obtain hstop | ⟨inside, target, rest, fewer, hstop, hlinks, hrest⟩ := walk_cases h
    · rw [walk, advance_follow.1 _ _ hstop hfound hlink]
    · cases hlinks
      have htarget : target ≠ [] := by
        rintro rfl
        rw [walk, hstop] at h
        cases h
      rw [walk, advance_follow.2 _ _ _ hstop]
      dsimp only
      rw [if_neg htarget]
      exact ih hrest

end FileTree
