import Novbot.Runtime.Listing

/-!
# Reads of secret files

`read` of `novbot-skill-runtime/src/host.rs` against the files that no grant should open:
those that the static denylist names, and the memory and the environment of processes and
threads.  The denylist looks at the text of the resolved path (`own`), while the system
opens what the path leads to.

`reads_no_secret_iff` says when that is enough.  A path with a canonical parent leads to
where it says, so only what the denylist does not know gets through: the files of threads.
A path whose parent cannot be made canonical, because of more than forty links on the way
to it, is opened with the rest of its links.
-/

namespace Novbot.Runtime

open Text FileTree

/-- `MAX_READ_BYTES`. -/
def maxReadBytes : Nat := 256 * 1024

section
variable (fs : FileSystem)

/-- `read_limited`. -/
def readLimited (path : Path) (maxBytes : Nat) : Except Errno (List UInt8) := do
  let (_, content) ← fs.readNofollow path
  return content.take (min maxBytes maxReadBytes)

/-- `read` of an allowed path. -/
def readAllowed (maxBytes : Nat) (resolved : Resolved) : Except HostError (List UInt8) :=
  if resolved.finalSymlink then .error (.io "refusing to follow symlink")
  else (readLimited fs resolved.own maxBytes).mapError fun err => ioError (.os err)

/-- `read`, below the limit of denials. -/
def readCall (grants : GrantSet) (denylist : Denylist) (raw : String) (maxBytes : Nat) :
    Except HostError (List UInt8) :=
  match authorizeFs fs grants denylist "fs.read" raw true with
  | .deny reason target => .error (witDenial "fs.read" target reason)
  | .allow resolved => readAllowed fs maxBytes resolved

end

/-! ## Secrets -/

/-- `environ` or `mem` of a process. -/
def ProcessSecret (location : Path) : Prop :=
  ∃ pid leaf, location = ["proc".toList, pid, leaf] ∧ secretLeaf leaf = true

/-- `environ` or `mem` of a thread. -/
def ThreadSecret (location : Path) : Prop :=
  ∃ pid tid leaf, location = ["proc".toList, pid, "task".toList, tid, leaf] ∧ secretLeaf leaf = true

/-- A path that the static denylist names, under one of its names. -/
def staticPath (path : Path) : Bool := (aliases (displayPath path)).any staticDeny

def Secret (location : Path) : Prop :=
  ProcessSecret location ∨ ThreadSecret location ∨ staticPath location = true

theorem deniesFs_nil (path : Path) : Denylist.deniesFs ⟨[]⟩ path = staticPath path := by
  have hhit : Denylist.hit ⟨[]⟩ = staticDeny := by
    funext text
    simp [Denylist.hit]
  rw [Denylist.deniesFs, hhit, staticPath]

theorem deniesFs_of_static {denylist : Denylist} {path : Path} (h : staticPath path = true) :
    denylist.deniesFs path = true := by
  obtain ⟨text, hmem, hdeny⟩ := List.any_eq_true.mp h
  refine List.any_eq_true.mpr ⟨text, hmem, ?_⟩
  rw [Denylist.hit, hdeny, Bool.true_or]

/-- Below `/proc`, the denylist has one rule. -/
theorem staticDeny_proc (rest : List Char) :
    staticDeny ("/proc/".toList ++ rest) = procSecret ("/proc/".toList ++ rest) := rfl

theorem staticDeny_private (rest : List Char) :
    staticDeny ("/private/".toList ++ rest) = false := rfl

theorem procSecret_eq (rest : List Char) :
    procSecret ("/proc/".toList ++ rest) =
      match split '/' rest with
      | [pid, leaf] => pid ≠ [] && secretLeaf leaf
      | _ => false := rfl

theorem trimSlash_concat (cs : List Char) {c : Char} (hc : c ≠ '/') :
    trimSlash (cs ++ [c]) = cs ++ [c] := by
  unfold trimSlash
  split
  · refine trimEndMatches_of_last fun d hd => ?_
    rw [List.getLast?_concat] at hd
    cases hd
    exact beq_eq_false_iff_ne.mpr hc
  · rfl

theorem secretLeaf_concat {leaf : Name} (h : secretLeaf leaf = true) :
    '/' ∉ leaf ∧ ∃ start c, c ≠ '/' ∧ leaf = start ++ [c] := by
  rw [secretLeaf, Bool.or_eq_true, beq_iff_eq, beq_iff_eq] at h
  rcases h with rfl | rfl
  · exact ⟨by decide, "enviro".toList, 'n', by decide, rfl⟩
  · exact ⟨by decide, "me".toList, 'm', by decide, rfl⟩

/-- The text of a path below `/proc`, with its other name. -/
theorem aliases_proc {leaf : Name} (hleaf : secretLeaf leaf = true) (rest : List Char) :
    aliases ("/proc/".toList ++ rest ++ leaf) =
      ["/proc/".toList ++ rest ++ leaf, "/private/".toList ++ ("proc/".toList ++ rest ++ leaf)] := by
  obtain ⟨-, start, c, hc, rfl⟩ := secretLeaf_concat hleaf
  have htrim : trimSlash ("/proc/".toList ++ rest ++ (start ++ [c])) =
      "/proc/".toList ++ rest ++ (start ++ [c]) := by
    rw [← List.append_assoc]
    exact trimSlash_concat _ hc
  rw [aliases, htrim]
  rfl

theorem static_of_process {pid leaf : Name} (hpid : pid ≠ [] ∧ '/' ∉ pid)
    (hleaf : secretLeaf leaf = true) : staticPath ["proc".toList, pid, leaf] = true := by
  have htext : displayPath ["proc".toList, pid, leaf] = "/proc/".toList ++ (pid ++ ['/']) ++ leaf := by
    simp [displayPath]
  have hdeny : staticDeny ("/proc/".toList ++ (pid ++ ['/']) ++ leaf) = true := by
    rw [List.append_assoc, staticDeny_proc, procSecret_eq, List.append_assoc, List.singleton_append,
      split_append, split_of_not_mem hpid.2, split_of_not_mem (secretLeaf_concat hleaf).1]
    simp [hpid.1, hleaf]
  rw [staticPath, htext, aliases_proc hleaf, List.any_cons, hdeny, Bool.true_or]

/-- The denylist does not know the files of threads. -/
theorem not_static_of_thread {location : Path} (h : ThreadSecret location) :
    staticPath location = false := by
  obtain ⟨pid, tid, leaf, rfl, hleaf⟩ := h
  have htext : displayPath ["proc".toList, pid, "task".toList, tid, leaf] =
      "/proc/".toList ++ (pid ++ '/' :: ("task".toList ++ '/' :: (tid ++ ['/']))) ++ leaf := by
    simp [displayPath]
  have hdeny : staticDeny
      ("/proc/".toList ++ (pid ++ '/' :: ("task".toList ++ '/' :: (tid ++ ['/']))) ++ leaf) =
        false := by
    rw [List.append_assoc, staticDeny_proc, procSecret_eq]
    have hsplit : split '/' (pid ++ '/' :: ("task".toList ++ '/' :: (tid ++ ['/'])) ++ leaf) =
        split '/' pid ++ ("task".toList :: (split '/' tid ++ split '/' leaf)) := by
      simp only [List.append_assoc, List.cons_append, List.nil_append, split_append]
      rfl
    rw [hsplit]
    split
    · next first last hparts =>
      have hpid := List.length_pos_of_ne_nil (split_ne_nil '/' pid)
      have htid := List.length_pos_of_ne_nil (split_ne_nil '/' tid)
      have hlen := congrArg List.length hparts
      simp only [List.length_append, List.length_cons, List.length_nil] at hlen
      omega
    · rfl
  rw [staticPath, htext, aliases_proc hleaf, List.any_cons, hdeny, List.any_cons,
    staticDeny_private]
  rfl

/-! ## What a read returns -/

variable {fs : FileSystem}

theorem readNofollow_cases {path location : Path} {content : List UInt8}
    (h : fs.readNofollow path = .ok (location, content)) :
    fs.locate path = .ok location ∧ fs.root.descend location = some (.file (some content)) := by
  cases hlocate : fs.locate path with
  | error err => simp [FileSystem.readNofollow, hlocate, bind, Except.bind] at h
  | ok place =>
    simp only [FileSystem.readNofollow, hlocate, bind, Except.bind] at h
    split at h
    · next found hfound =>
      cases h
      exact ⟨rfl, hfound⟩
    all_goals cases h

theorem readCall_cases {grants : GrantSet} {denylist : Denylist} {raw : String} {maxBytes : Nat}
    {bytes : List UInt8} (h : readCall fs grants denylist raw maxBytes = .ok bytes) :
    ∃ resolved location content,
      authorizeFs fs grants denylist "fs.read" raw true = .allow resolved ∧
      resolved.finalSymlink = false ∧
      fs.readNofollow resolved.own = .ok (location, content) ∧
      bytes = content.take (min maxBytes maxReadBytes) := by
  unfold readCall at h
  cases hauth : authorizeFs fs grants denylist "fs.read" raw true with
  | deny reason target =>
    rw [hauth] at h
    cases h
  | allow resolved =>
    rw [hauth] at h
    dsimp only at h
    unfold readAllowed at h
    split at h
    · cases h
    · next hfinal =>
      cases hread : fs.readNofollow resolved.own with
      | error err =>
        rw [readLimited, hread] at h
        cases h
      | ok found =>
        obtain ⟨location, content⟩ := found
        rw [readLimited, hread] at h
        cases h
        exact ⟨resolved, location, content, rfl, Bool.not_eq_true _ ▸ hfinal, hread, rfl⟩

/-- A path that the file system reads is no symbolic link. -/
theorem final_of_read {text : List Char} {resolved : Resolved} (h : resolve fs text = some resolved)
    {location : Path} {content : List UInt8}
    (hread : fs.readNofollow resolved.own = .ok (location, content)) :
    resolved.finalSymlink = false ∧ resolved.scope = resolved.own := by
  obtain ⟨⟨target, hlink⟩, -⟩ | ⟨-, hfinal, hscope⟩ := resolve_final h
  · obtain ⟨hlocate, hfound⟩ := readNofollow_cases hread
    simp [FileSystem.symlinkMetadata, hlocate, hfound, bind, Except.bind] at hlink
  · exact ⟨hfinal, hscope⟩

/-- A grant of everything. -/
def allGrants : GrantSet := ⟨[("fs.read", [.path "/**"])]⟩

theorem authorize_all {raw : String} {resolved : Resolved} (hscreen : rejectSyntax raw.toList = false)
    (hresolve : resolve fs raw.toList = some resolved) (hbroken : resolved.brokenSymlink = false)
    (hstatic : staticPath resolved.scope = false) :
    authorizeFs fs allGrants ⟨[]⟩ "fs.read" raw true = .allow resolved := by
  have hcheck : check fs allGrants "fs.read" (.path resolved.scope) ⟨[]⟩ = none := by
    show (if Denylist.deniesFs ⟨[]⟩ resolved.scope = true then _ else none) = none
    rw [deniesFs_nil, hstatic]
    rfl
  rw [authorizeFs, hscreen, hresolve]
  dsimp only
  rw [hbroken, if_pos rfl, hcheck]
  rfl

theorem resolve_own {text : List Char} {resolved : Resolved} (h : resolve fs text = some resolved) :
    rejectSyntax text = false ∧
      ∃ lexical, lexicalNormalize text = some lexical ∧ resolved.own = canonicalOwn fs lexical := by
  unfold resolve at h
  split at h
  · cases h
  · next hscreen =>
    refine ⟨Bool.not_eq_true _ ▸ hscreen, ?_⟩
    cases hlexical : lexicalNormalize text with
    | none =>
      rw [hlexical] at h
      cases h
    | some lexical =>
      rw [hlexical] at h
      refine ⟨lexical, rfl, ?_⟩
      dsimp only at h
      split at h
      · split at h
        all_goals
          cases h
          rfl
      · cases h
        rfl

theorem resolve_of_normalize {text : List Char} {lexical : Path}
    (hscreen : rejectSyntax text = false) (hlexical : lexicalNormalize text = some lexical) :
    ∃ resolved, resolve fs text = some resolved ∧ resolved.own = canonicalOwn fs lexical := by
  rw [resolve, hscreen, hlexical]
  dsimp only
  rw [if_neg Bool.false_ne_true]
  split
  · split
    · exact ⟨_, rfl, rfl⟩
    · exact ⟨_, rfl, rfl⟩
  · exact ⟨_, rfl, rfl⟩

/-- A readable path resolves to itself. -/
theorem resolve_of_read {text : List Char} {lexical location : Path} {content : List UInt8}
    (hscreen : rejectSyntax text = false) (hlexical : lexicalNormalize text = some lexical)
    (hread : fs.readNofollow (canonicalOwn fs lexical) = .ok (location, content)) :
    resolve fs text =
      some ⟨canonicalOwn fs lexical, canonicalOwn fs lexical, false, false⟩ := by
  obtain ⟨hlocate, hfound⟩ := readNofollow_cases hread
  have hmeta : fs.symlinkMetadata (canonicalOwn fs lexical) = .ok (.file (some content)) := by
    simp [FileSystem.symlinkMetadata, hlocate, hfound, bind, Except.bind]
  rw [resolve, hscreen, hlexical]
  dsimp only
  rw [hmeta]
  rfl

/-- The root is no file. -/
theorem not_read_root {location : Path} {content : List UInt8} :
    fs.readNofollow [] ≠ .ok (location, content) := by
  intro h
  cases h

/-- What is allowed is not on the denylist. -/
theorem deniesFs_of_allow {grants : GrantSet} {denylist : Denylist} {raw : String}
    {resolved : Resolved}
    (h : authorizeFs fs grants denylist "fs.read" raw true = .allow resolved) :
    denylist.deniesFs resolved.scope = false := by
  have hresolve := resolve_of_allow h
  obtain ⟨hscreen, -⟩ := resolve_own hresolve
  rw [authorizeFs, hscreen, hresolve] at h
  split at h
  · cases h
  · next hdeclared =>
    dsimp only at h
    split at h
    · cases h
    · split at h
      · cases h
      · rw [if_pos rfl] at h
        cases hcheck : check fs grants "fs.read" (.path resolved.scope) denylist with
        | some reason =>
          rw [hcheck] at h
          cases h
        | none => exact ((check_path_eq_none rfl rfl).mp hcheck).2.2

/-! ## When no secret is read -/

/-- No read of a path returns bytes of a secret file, whatever is granted. -/
def ReadsNoSecret (fs : FileSystem) (raw : String) : Prop :=
  ∀ grants denylist maxBytes bytes, readCall fs grants denylist raw maxBytes = .ok bytes →
    ∀ resolved location content, resolve fs raw.toList = some resolved →
      fs.readNofollow resolved.own = .ok (location, content) → ¬ Secret location

/-- A path with a canonical parent names no file of a thread, and one without is refused
by its own text where it leads to a secret. -/
def NoAlias (fs : FileSystem) (raw : String) : Prop :=
  rejectSyntax raw.toList = false →
    ∀ lexical name parents, lexicalNormalize raw.toList = some lexical →
      lexical.reverse = name :: parents →
      match fs.canonicalize parents.reverse with
      | .ok real =>
        ∀ location content, fs.readNofollow (real ++ [name]) = .ok (location, content) →
          ¬ ThreadSecret (real ++ [name])
      | .error _ =>
        ∀ location content,
          fs.readNofollow (existingPrefix fs parents ++ [name]) = .ok (location, content) →
          Secret location → staticPath (existingPrefix fs parents ++ [name]) = true

theorem canonicalOwn_eq {lexical : Path} {name : Name} {parents : List Name}
    (h : lexical.reverse = name :: parents) :
    canonicalOwn fs lexical = existingPrefix fs parents ++ [name] := by
  rw [canonicalOwn, h]

/-- A secret that the denylist lets through when the path is what it says. -/
theorem thread_of_secret {location : Path} {content : List UInt8}
    (hfound : fs.root.descend location = some (.file (some content))) (hsecret : Secret location)
    (hstatic : staticPath location = false) : ThreadSecret location := by
  obtain ⟨pid, leaf, rfl, hleaf⟩ | hthread | hdenied := hsecret
  · obtain ⟨⟨hpid, -, -⟩, hslash⟩ := Tree.names_of_descend fs.named hfound pid (by simp)
    rw [static_of_process ⟨hpid, hslash⟩ hleaf] at hstatic
    cases hstatic
  · exact hthread
  · rw [hstatic] at hdenied
    cases hdenied

theorem readsNoSecret_iff {raw : String} : ReadsNoSecret fs raw ↔ NoAlias fs raw := by
  constructor
  · intro hreads hscreen lexical name parents hlexical hreverse
    have hown : canonicalOwn fs lexical = existingPrefix fs parents ++ [name] :=
      canonicalOwn_eq hreverse
    -- A secret that is readable and not refused by its text is read under `allGrants`.
    have hleak : ∀ location content,
        fs.readNofollow (existingPrefix fs parents ++ [name]) = .ok (location, content) →
        Secret location → staticPath (existingPrefix fs parents ++ [name]) = true := by
      intro location content hread hsecret
      by_contra hstatic
      rw [Bool.not_eq_true] at hstatic
      rw [← hown] at hread hstatic
      have hresolve := resolve_of_read hscreen hlexical hread
      have hauth := authorize_all hscreen hresolve rfl hstatic
      have hcall : readCall fs allGrants ⟨[]⟩ raw 0 = .ok [] := by
        rw [readCall, hauth]
        dsimp only
        rw [readAllowed, if_neg (by simp), readLimited, hread]
        simp [bind, Except.bind, Except.mapError, pure, Except.pure]
      exact hreads _ _ _ _ hcall _ _ _ hresolve hread hsecret
    cases hreal : fs.canonicalize parents.reverse with
    | error err => exact hleak
    | ok real =>
      intro location content hread hthread
      have hplain : Plain name := plain_of_normalize hlexical name (by
        rw [← List.mem_reverse, hreverse]
        exact List.mem_cons_self ..)
      have hinitial : existingPrefix fs parents = real := existingPrefix_of_canonical hreal
      rw [← hinitial] at hread
      obtain ⟨hlocate, -⟩ := readNofollow_cases hread
      obtain rfl := own_of_canonical hplain hreal hlocate
      have hstatic := hleak _ content hread (.inr (.inl hthread))
      rw [hinitial, not_static_of_thread hthread] at hstatic
      cases hstatic
  · intro halias grants denylist maxBytes bytes hcall resolved location content hresolve hread hsecret
    obtain ⟨allowed, _, _, hauth, -, -, -⟩ := readCall_cases hcall
    have hsame := resolve_of_allow hauth
    rw [hresolve] at hsame
    cases hsame
    have hallowed := deniesFs_of_allow hauth
    rw [(final_of_read hresolve hread).2] at hallowed
    have hstatic : staticPath resolved.own = false := by
      by_contra hstatic
      rw [Bool.not_eq_false] at hstatic
      rw [deniesFs_of_static hstatic] at hallowed
      cases hallowed
    obtain ⟨hscreen, lexical, hlexical, hown⟩ := resolve_own hresolve
    cases hreverse : lexical.reverse with
    | nil =>
      rw [hown, canonicalOwn, hreverse] at hread
      exact not_read_root hread
    | cons name parents =>
      have halias := halias hscreen lexical name parents hlexical hreverse
      rw [hown, canonicalOwn_eq hreverse] at hread hstatic
      cases hreal : fs.canonicalize parents.reverse with
      | error err =>
        rw [hreal] at halias
        rw [halias location content hread hsecret] at hstatic
        cases hstatic
      | ok real =>
        rw [hreal] at halias
        have hplain : Plain name := plain_of_normalize hlexical name (by
          rw [← List.mem_reverse, hreverse]
          exact List.mem_cons_self ..)
        obtain ⟨hlocate, hfound⟩ := readNofollow_cases hread
        obtain rfl := own_of_canonical hplain hreal hlocate
        rw [existingPrefix_of_canonical hreal] at hread hstatic
        exact halias _ content hread (thread_of_secret hfound hsecret hstatic)

/-- A process with its thread. -/
def threadTree : FileSystem where
  entries := [("proc".toList, .dir [("7".toList, .dir [("task".toList, .dir [("7".toList,
    .dir [("environ".toList, .file (some [65]))])])])])]
  named := by decide

end Novbot.Runtime
