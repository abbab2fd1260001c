import Novbot.Runtime.Calls

/-!
# Access to granted files

`read` and `stat` of `novbot-skill-runtime/src/host.rs` with the checks that stand before
them.  The checks look at the path that `resolve` makes of the request, and the system then
opens that path.  `mediated_iff` says when the file that is reached has passed the checks.

A request whose parent directory can be made canonical resolves to a path without links on
the way, and reaches what was checked.  With more than forty links on the way the rest of
them is followed when the path is opened, after the checks.
-/

namespace Novbot.Runtime

open Text FileTree

/-! ## The checks in order -/

/-- What a call must pass, with the reason of a refusal. -/
abbrev Checks := List (Bool × DenialReason)

def firstFailing (checks : Checks) : Option DenialReason := (checks.find? (!·.1)).map (·.2)

theorem firstFailing_eq_none {checks : Checks} :
    firstFailing checks = none ↔ ∀ passed ∈ checks, passed.1 = true := by
  simp [firstFailing]

/-- The path that is looked up in the grants. -/
def Resolved.candidate (resolved : Resolved) (useTarget : Bool) : Path :=
  if useTarget then resolved.scope else resolved.own

def fsChecks (fs : FileSystem) (grants : GrantSet) (denylist : Denylist) (capability raw : String)
    (useTarget : Bool) : Checks :=
  let resolved := resolve fs raw.toList
  [(grants.declares capability, .undeclaredCapability),
    (!rejectSyntax raw.toList, .outOfScope),
    (resolved.any fun found => !(useTarget && found.brokenSymlink), .outOfScope),
    (resolved.any fun found => grants.pathMatches fs capability (found.candidate useTarget),
      .outOfScope),
    (resolved.any fun found => !denylist.deniesFs (found.candidate useTarget), .policyDenied)]

/-- A capability that the runtime knows and that is granted for paths. -/
def IsPathCapability (capability : String) : Prop :=
  ∃ cap, capabilities.find? (·.name == capability) = some cap ∧ cap.scope = .pathGlob

theorem isPathCapability_read : IsPathCapability "fs.read" := ⟨_, rfl, rfl⟩

theorem isPathCapability_stat : IsPathCapability "fs.stat" := ⟨_, rfl, rfl⟩

/-- The answer to a request, which is recorded when it is a denial. -/
def Answered {α : Type} (ctx : RunCtx) (moment : Moment) (capability raw : String)
    (useTarget : Bool) (reply : Except HostError α) (ctx' : RunCtx) : Prop :=
  match firstFailing (fsChecks moment.fs ctx.grants ctx.denylist capability raw useTarget) with
  | none => (∀ denial, reply ≠ .error (.denied denial)) ∧ ctx'.denials = ctx.denials
  | some reason =>
    ∃ target, reply = .error (witDenial capability target reason) ∧
      ctx'.denials =
        ctx.denials ++ [⟨capability, .ofList (clip 1024 target), reason, moment.elapsed⟩]

section
variable {fs : FileSystem} {grants : GrantSet} {denylist : Denylist} {capability raw : String}
  {useTarget : Bool}

/-- The check of a path in a declared capability. -/
theorem check_path_eq (hcap : IsPathCapability capability)
    (hdeclares : grants.declares capability = true) (path : Path) :
    check fs grants capability (.path path) denylist =
      firstFailing [(grants.pathMatches fs capability path, .outOfScope),
        (!denylist.deniesFs path, .policyDenied)] := by
  obtain ⟨cap, hfind, hscope⟩ := hcap
  rw [check, hfind]
  dsimp only
  rw [hscope, hdeclares]
  cases hmatches : grants.pathMatches fs capability path with
  | false => simp [firstFailing, hmatches]
  | true =>
    cases hdenies : denylist.deniesFs path with
    | false => simp [firstFailing, hmatches, hdenies, capDisabled]
    | true => simp [firstFailing, hmatches, hdenies, capDisabled]

theorem declares_of_pathMatches {path : Path}
    (h : grants.pathMatches fs capability path = true) : grants.declares capability = true := by
  have hsome : (grants.byName.lookup capability).isSome = true := by
    rw [GrantSet.pathMatches, GrantSet.scopes] at h
    cases hlookup : grants.byName.lookup capability with
    | none =>
      rw [hlookup] at h
      cases h
    | some scopes => rfl
  obtain ⟨entry, hentry, hname⟩ := List.lookup_isSome_iff.mp hsome
  exact List.any_eq_true.mpr ⟨entry, hentry, beq_iff_eq.mpr (beq_iff_eq.mp hname).symm⟩

/-- A request is refused for the first check that it fails. -/
theorem authorizeFs_eq (hcap : IsPathCapability capability) :
    match firstFailing (fsChecks fs grants denylist capability raw useTarget) with
    | none => ∃ resolved, authorizeFs fs grants denylist capability raw useTarget = .allow resolved
    | some reason =>
      ∃ target, authorizeFs fs grants denylist capability raw useTarget = .deny reason target := by
  rw [fsChecks, authorizeFs]
  cases hdeclares : grants.declares capability with
  | false => exact ⟨_, rfl⟩
  | true =>
    cases hsyntax : rejectSyntax raw.toList with
    | true => exact ⟨_, rfl⟩
    | false =>
      cases hresolve : resolve fs raw.toList with
      | none => exact ⟨_, rfl⟩
      | some resolved =>
        dsimp only [Option.any_some]
        rw [check_path_eq hcap hdeclares]
        cases hbroken : useTarget && resolved.brokenSymlink with
        | true => exact ⟨_, rfl⟩
        | false =>
          have hsame : (if useTarget then resolved.scope else resolved.own) =
              resolved.candidate useTarget := rfl
          rw [hsame]
          cases grants.pathMatches fs capability (resolved.candidate useTarget) with
          | false => exact ⟨_, rfl⟩
          | true =>
            cases denylist.deniesFs (resolved.candidate useTarget) with
            | false => exact ⟨_, rfl⟩
            | true => exact ⟨_, rfl⟩

/-- A call below the limit answers with the denial that it records, if it is refused. -/
theorem fsCall_answered {α : Type} {ctx : RunCtx} {moment : Moment} {reply : Except HostError α}
    {allowed : Resolved → Except HostError α} (hcap : IsPathCapability capability)
    (hallowed : ∀ resolved denial, allowed resolved ≠ .error (.denied denial))
    (h : (ctx.fsCall moment capability raw useTarget allowed).1 = .ok reply) :
    Answered ctx moment capability raw useTarget reply
      (ctx.fsCall moment capability raw useTarget allowed).2 := by
  have hauth := @authorizeFs_eq moment.fs ctx.grants ctx.denylist capability raw useTarget hcap
  rw [RunCtx.fsCall, RunCtx.guarded] at h ⊢
  rw [Answered]
  cases hguard : ctx.guardLimit with
  | error err =>
    rw [hguard] at h
    cases h
  | ok _ =>
    rw [hguard] at h
    dsimp only at h ⊢
    cases hfirst : firstFailing
      (fsChecks moment.fs ctx.grants ctx.denylist capability raw useTarget) with
    | none =>
      rw [hfirst] at hauth
      obtain ⟨resolved, hauth⟩ := hauth
      rw [hauth] at h ⊢
      cases h
      exact ⟨hallowed resolved, rfl⟩
    | some reason =>
      rw [hfirst] at hauth
      obtain ⟨target, hauth⟩ := hauth
      rw [hauth] at h ⊢
      cases h
      exact ⟨target, rfl, rfl⟩

end

/-! ## Where a path leads -/

section
variable (fs : FileSystem)

/-- Where the system finds what a path names, or looks for it when it is not there. -/
def place (path : Path) : Path :=
  match fs.locate path with
  | .ok location => location
  | .error _ => canonicalOwn fs path

variable {fs}

theorem place_of_read {path location : Path} {content : List UInt8}
    (h : fs.readNofollow path = .ok (location, content)) : place fs path = location := by
  rw [place, (readNofollow_cases h).1]

/-- The last name of a path is not followed. -/
theorem place_concat {name : Name} (hplain : Plain name) (dir : Path) :
    ∃ real, place fs (dir ++ [name]) = real ++ [name] := by
  rw [place]
  cases hlocate : fs.locate (dir ++ [name]) with
  | ok location =>
    obtain ⟨real, _, _, -, -, -, hlocation⟩ := walk_parent hplain hlocate
    exact ⟨real, hlocation rfl⟩
  | error err =>
    refine ⟨existingPrefix fs dir.reverse, canonicalOwn_eq ?_⟩
    rw [List.reverse_append, List.reverse_singleton, List.singleton_append]

/-- A path in a canonical directory leads to itself. -/
theorem place_of_real {real : Path} {name : Name} (hplain : Plain name)
    (hreal : Real fs.root real) : place fs (real ++ [name]) = real ++ [name] := by
  rw [place]
  cases hlocate : fs.locate (real ++ [name]) with
  | ok location => exact walk_in_real hreal hplain hlocate
  | error err =>
    have hcanonical : fs.canonicalize real = .ok real := walk_of_real hreal true _
    have hreverse : (real ++ [name]).reverse = name :: real.reverse := by
      rw [List.reverse_append, List.reverse_singleton, List.singleton_append]
    dsimp only
    rw [canonicalOwn_eq hreverse, existingPrefix_of_canonical]
    rw [List.reverse_reverse]
    exact hcanonical

end

/-! ## Mediation -/

/-- A declared grant of the operation covers the path, and no denylist has it. -/
structure Covered (fs : FileSystem) (ctx : RunCtx) (capability : String) (path : Path) : Prop where
  granted : ctx.grants.pathMatches fs capability path = true
  allowed : ctx.denylist.deniesFs path = false

/-- The request names the last component of the path, links or not. -/
def Names (raw : String) (path : Path) : Prop :=
  ∃ lexical, lexicalNormalize raw.toList = some lexical ∧ path.getLast? = lexical.getLast?

/-- What is reached by a call that opens a resolved path. -/
def Reaches (fs : FileSystem) (ctx : RunCtx) (capability raw : String) (resolved : Resolved) : Prop :=
  resolve fs raw.toList = some resolved ∧ Names raw (place fs resolved.own) ∧
    Covered fs ctx capability (place fs resolved.own)

/-- Every read and every stat of a path reaches what the checks have passed, and every
refusal of one is recorded. -/
structure Mediated (ctx : RunCtx) (moment : Moment) (raw : String) : Prop where
  read : ∀ maxBytes bytes, (ctx.perform moment (.fsRead raw maxBytes)).1 = .ok (.ok bytes) →
    ∃ resolved content, Reaches moment.fs ctx "fs.read" raw resolved ∧
      moment.fs.readNofollow resolved.own = .ok (place moment.fs resolved.own, content) ∧
      bytes = content.take (min maxBytes maxReadBytes)
  stat : ∀ stat, (ctx.perform moment (.fsStat raw)).1 = .ok (.ok stat) →
    ∃ resolved, Reaches moment.fs ctx "fs.stat" raw resolved ∧
      RunCtx.statAllowed moment resolved = .ok stat
  readAnswer : ∀ maxBytes reply, (ctx.perform moment (.fsRead raw maxBytes)).1 = .ok reply →
    Answered ctx moment "fs.read" raw true reply (ctx.perform moment (.fsRead raw maxBytes)).2
  statAnswer : ∀ reply, (ctx.perform moment (.fsStat raw)).1 = .ok reply →
    Answered ctx moment "fs.stat" raw false reply (ctx.perform moment (.fsStat raw)).2

/-- Where the parent of a path cannot be made canonical, what is left of the path leads to
a place that is covered when its text is. -/
def NoDrift (ctx : RunCtx) (moment : Moment) (raw : String) : Prop :=
  ctx.denials.length < denialLimit → rejectSyntax raw.toList = false →
    ∀ lexical name parents err, lexicalNormalize raw.toList = some lexical →
      lexical.reverse = name :: parents → moment.fs.canonicalize parents.reverse = .error err →
      let own := existingPrefix moment.fs parents ++ [name]
      ((∃ found, moment.fs.readNofollow own = .ok found) →
        Covered moment.fs ctx "fs.read" own → Covered moment.fs ctx "fs.read" (place moment.fs own)) ∧
      ((∃ stat, RunCtx.statAllowed moment ⟨own, own, false, false⟩ = .ok stat) →
        Covered moment.fs ctx "fs.stat" own → Covered moment.fs ctx "fs.stat" (place moment.fs own))

section
variable {ctx : RunCtx} {moment : Moment} {raw : String}

theorem fsCall_ok {α : Type} {capability : String} {useTarget : Bool}
    {allowed : Resolved → Except HostError α} {a : α} :
    (ctx.fsCall moment capability raw useTarget allowed).1 = .ok (.ok a) ↔
      ctx.denials.length < denialLimit ∧ ∃ resolved,
        authorizeFs moment.fs ctx.grants ctx.denylist capability raw useTarget = .allow resolved ∧
        allowed resolved = .ok a := by
  rw [RunCtx.fsCall, RunCtx.guarded, RunCtx.guardLimit]
  by_cases hlimit : ctx.denials.length ≥ denialLimit
  · rw [if_pos hlimit]
    constructor
    · intro h
      cases h
    · rintro ⟨hlt, -⟩
      exact absurd hlt (Nat.not_lt_of_le hlimit)
  · rw [if_neg hlimit]
    dsimp only
    cases authorizeFs moment.fs ctx.grants ctx.denylist capability raw useTarget with
    | deny reason target =>
      constructor
      · intro h
        cases h
      · rintro ⟨-, resolved, hauth, -⟩
        cases hauth
    | allow resolved =>
      constructor
      · intro h
        exact ⟨Nat.lt_of_not_le hlimit, resolved, rfl, Except.ok.inj h⟩
      · rintro ⟨-, found, hauth, hfound⟩
        cases hauth
        exact congrArg Except.ok hfound

/-- A request is allowed when it passes all checks. -/
theorem allow_iff {capability : String} {useTarget : Bool} {resolved : Resolved}
    (hcap : IsPathCapability capability) (hresolve : resolve moment.fs raw.toList = some resolved) :
    authorizeFs moment.fs ctx.grants ctx.denylist capability raw useTarget = .allow resolved ↔
      (useTarget && resolved.brokenSymlink) = false ∧
        Covered moment.fs ctx capability (resolved.candidate useTarget) := by
  have hauth := @authorizeFs_eq moment.fs ctx.grants ctx.denylist capability raw useTarget hcap
  have hchecks : firstFailing
      (fsChecks moment.fs ctx.grants ctx.denylist capability raw useTarget) = none ↔
        (useTarget && resolved.brokenSymlink) = false ∧
          Covered moment.fs ctx capability (resolved.candidate useTarget) := by
    have hsyntax := (resolve_own hresolve).1
    rw [firstFailing_eq_none, fsChecks, hresolve, hsyntax]
    simp only [List.forall_mem_cons, Option.any_some, Bool.not_eq_true', Bool.not_false, true_and]
    constructor
    · rintro ⟨-, hbroken, hmatches, hdenies, -⟩
      exact ⟨hbroken, hmatches, hdenies⟩
    · rintro ⟨hbroken, hmatches, hdenies⟩
      exact ⟨declares_of_pathMatches hmatches, hbroken, hmatches, hdenies,
        fun _ hnone => absurd hnone List.not_mem_nil⟩
  rw [← hchecks]
  cases hfirst : firstFailing
    (fsChecks moment.fs ctx.grants ctx.denylist capability raw useTarget) with
  | none =>
    rw [hfirst] at hauth
    obtain ⟨found, hauth⟩ := hauth
    have hsame := resolve_of_allow hauth
    rw [hresolve] at hsame
    cases hsame
    exact iff_of_true hauth rfl
  | some reason =>
    rw [hfirst] at hauth
    obtain ⟨target, hauth⟩ := hauth
    rw [hauth]
    exact iff_of_false FsAuth.noConfusion (by simp)

/-- The parent of a resolved path and its last name. -/
theorem resolved_cases {resolved : Resolved} (h : resolve moment.fs raw.toList = some resolved) :
    ∃ lexical, lexicalNormalize raw.toList = some lexical ∧
      (lexical = [] ∧ resolved.own = [] ∨ ∃ name parents, lexical.reverse = name :: parents ∧
        Plain name ∧ resolved.own = existingPrefix moment.fs parents ++ [name]) := by
  obtain ⟨-, lexical, hlexical, hown⟩ := resolve_own h
  refine ⟨lexical, hlexical, ?_⟩
  cases hreverse : lexical.reverse with
  | nil =>
    rw [List.reverse_eq_nil_iff] at hreverse
    subst hreverse
    exact .inl ⟨rfl, hown⟩
  | cons name parents =>
    refine .inr ⟨name, parents, rfl, plain_of_normalize hlexical name ?_, ?_⟩
    · rw [← List.mem_reverse, hreverse]
      exact List.mem_cons_self
    · rw [hown, canonicalOwn_eq hreverse]

theorem names_place {resolved : Resolved} (h : resolve moment.fs raw.toList = some resolved) :
    Names raw (place moment.fs resolved.own) := by
  obtain ⟨lexical, hlexical, ⟨rfl, hown⟩ | ⟨name, parents, hreverse, hplain, hown⟩⟩ :=
    resolved_cases h
  · rw [hown]
    exact ⟨[], hlexical, rfl⟩
  · obtain ⟨real, hreal⟩ := place_concat hplain (existingPrefix moment.fs parents)
    refine ⟨lexical, hlexical, ?_⟩
    rw [hown, hreal, List.getLast?_concat, ← List.head?_reverse, hreverse]
    rfl

/-- A resolved path that is covered leads to a place that is, unless it drifts. -/
theorem covered_place {capability : String} {resolved : Resolved}
    (hresolve : resolve moment.fs raw.toList = some resolved)
    (hcovered : Covered moment.fs ctx capability resolved.own)
    (hdrift : ∀ lexical name parents err, lexicalNormalize raw.toList = some lexical →
      lexical.reverse = name :: parents → moment.fs.canonicalize parents.reverse = .error err →
      resolved.own = existingPrefix moment.fs parents ++ [name] →
      Covered moment.fs ctx capability (place moment.fs resolved.own)) :
    Covered moment.fs ctx capability (place moment.fs resolved.own) := by
  obtain ⟨lexical, hlexical, ⟨rfl, hown⟩ | ⟨name, parents, hreverse, hplain, hown⟩⟩ :=
    resolved_cases hresolve
  · rw [hown] at hcovered ⊢
    exact hcovered
  · cases hreal : moment.fs.canonicalize parents.reverse with
    | error err => exact hdrift lexical name parents err hlexical hreverse hreal hown
    | ok real =>
      rw [hown, existingPrefix_of_canonical hreal] at hcovered ⊢
      rw [place_of_real hplain (real_of_walk .root hreal)]
      exact hcovered

theorem ioError_ne_denied (err : IoError) (denial : WitDenial) : ioError err ≠ .denied denial := by
  cases err with
  | other message => exact HostError.noConfusion
  | os err =>
    cases err with
    | notFound => exact HostError.noConfusion
    | permissionDenied => exact HostError.noConfusion
    | notDirectory => exact HostError.noConfusion
    | isDirectory => exact HostError.noConfusion
    | tooManyLinks => exact HostError.noConfusion

theorem readAllowed_ne_denied {fs : FileSystem} {maxBytes : Nat} (resolved : Resolved)
    (denial : WitDenial) : readAllowed fs maxBytes resolved ≠ .error (.denied denial) := by
  unfold readAllowed
  intro h
  split at h
  · cases h
  · cases hread : readLimited fs resolved.own maxBytes with
    | ok bytes =>
      rw [hread] at h
      cases h
    | error err =>
      rw [hread] at h
      exact ioError_ne_denied _ _ (Except.error.inj h)

theorem statAllowed_ne_denied (resolved : Resolved) (denial : WitDenial) :
    RunCtx.statAllowed moment resolved ≠ .error (.denied denial) := by
  unfold RunCtx.statAllowed
  intro h
  split at h
  · cases h
  · cases h
  · cases h
  · cases h
  · exact ioError_ne_denied _ _ (Except.error.inj h)

theorem mediated_of_noDrift (h : NoDrift ctx moment raw) : Mediated ctx moment raw := by
  constructor
  · intro maxBytes bytes hread
    obtain ⟨hlimit, resolved, hauth, hallowed⟩ := fsCall_ok.mp hread
    have hresolve := resolve_of_allow hauth
    have hcovered := ((allow_iff isPathCapability_read hresolve).mp hauth).2
    obtain ⟨found, location, content, hfound, hfinal, hopen, hbytes⟩ := readCall_cases (by
      rw [readCall, hauth]
      exact hallowed)
    rw [hauth] at hfound
    cases hfound
    have hscope : resolved.candidate true = resolved.own := (final_of_read hresolve hopen).2
    rw [hscope] at hcovered
    rw [← place_of_read hopen] at hopen
    refine ⟨resolved, content, ⟨hresolve, names_place hresolve, ?_⟩, hopen, hbytes⟩
    refine covered_place hresolve hcovered ?_
    intro lexical name parents err hlexical hreverse hfails hown
    rw [hown] at hopen hcovered ⊢
    exact (h hlimit (resolve_own hresolve).1 lexical name parents err hlexical hreverse hfails).1
      ⟨_, hopen⟩ hcovered
  · intro stat hstat
    obtain ⟨hlimit, resolved, hauth, hallowed⟩ := fsCall_ok.mp hstat
    have hresolve := resolve_of_allow hauth
    have hcovered := ((allow_iff isPathCapability_stat hresolve).mp hauth).2
    refine ⟨resolved, ⟨hresolve, names_place hresolve, ?_⟩, hallowed⟩
    refine covered_place hresolve hcovered ?_
    intro lexical name parents err hlexical hreverse hfails hown
    rw [hown]
    refine (h hlimit (resolve_own hresolve).1 lexical name parents err hlexical hreverse hfails).2
      ⟨stat, ?_⟩ (hown ▸ hcovered)
    rw [← hallowed, RunCtx.statAllowed, RunCtx.statAllowed, hown]
  · intro maxBytes reply hreply
    exact fsCall_answered isPathCapability_read readAllowed_ne_denied hreply
  · intro reply hreply
    exact fsCall_answered isPathCapability_stat statAllowed_ne_denied hreply

theorem noDrift_of_mediated (h : Mediated ctx moment raw) : NoDrift ctx moment raw := by
  intro hlimit hsyntax lexical name parents err hlexical hreverse hfails own
  have hown : canonicalOwn moment.fs lexical = own := canonicalOwn_eq hreverse
  constructor
  · rintro ⟨⟨location, content⟩, hopen⟩ hcovered
    rw [← hown] at hopen hcovered
    have hresolve := resolve_of_read hsyntax hlexical hopen
    have hauth : authorizeFs moment.fs ctx.grants ctx.denylist "fs.read" raw true = .allow _ :=
      (allow_iff isPathCapability_read hresolve).mpr ⟨rfl, hcovered⟩
    have hread : (ctx.perform moment (.fsRead raw 0)).1 = .ok (.ok []) := by
      refine fsCall_ok.mpr ⟨hlimit, _, hauth, ?_⟩
      rw [readAllowed, if_neg (by simp), readLimited, hopen]
      simp [bind, Except.bind, Except.mapError, pure, Except.pure]
    obtain ⟨resolved, _, ⟨hsame, -, hplace⟩, -⟩ := h.read 0 [] hread
    rw [hresolve] at hsame
    cases hsame
    rwa [hown] at hplace
  · rintro ⟨stat, hallowed⟩ hcovered
    obtain ⟨resolved, hresolve, hsame⟩ := resolve_of_normalize hsyntax hlexical
    rw [hown] at hsame
    rw [← hsame] at hcovered
    have hauth : authorizeFs moment.fs ctx.grants ctx.denylist "fs.stat" raw false =
        .allow resolved := (allow_iff isPathCapability_stat hresolve).mpr ⟨rfl, hcovered⟩
    have hstat : (ctx.perform moment (.fsStat raw)).1 = .ok (.ok stat) := by
      refine fsCall_ok.mpr ⟨hlimit, _, hauth, ?_⟩
      rw [← hallowed, RunCtx.statAllowed, RunCtx.statAllowed, hsame]
    obtain ⟨found, ⟨hfound, -, hplace⟩, -⟩ := h.stat stat hstat
    rw [hresolve] at hfound
    cases hfound
    rwa [hsame] at hplace

end

/-- A directory of data with two links: to itself, and out of it. -/
def linkedTree : FileSystem where
  entries := [("data".toList, .dir [("here".toList, .link ['.']), ("out".toList, .link "/etc".toList)]),
    ("etc".toList, .dir [("motd".toList, .file (some [72, 105]))])]
  named := by decide

/-- The link to itself forty times, and then the link out. -/
def farPath : List Char :=
  "/data".toList ++ (List.replicate 40 "/here".toList).flatten ++ "/out/motd".toList

def dataCtx : RunCtx := ⟨⟨[("fs.read", [.path "/data/**"])]⟩, ⟨[]⟩, [], []⟩

def linkedMoment : Moment where
  fs := linkedTree
  elapsed := 0
  observed _ := .error "unavailable"
  env _ := none

/-- The parent of `farPath`, from its end. -/
def farParents : List Name := "out".toList :: (List.replicate 40 "here".toList ++ ["data".toList])

theorem existingPrefix_far :
    existingPrefix linkedTree farParents = ["data".toList, "out".toList] := by decide +kernel

theorem place_far :
    place linkedTree ["data".toList, "out".toList, "motd".toList] = ["etc".toList, "motd".toList] := by
  decide +kernel

end Novbot.Runtime
