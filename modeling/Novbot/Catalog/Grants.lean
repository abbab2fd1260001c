import Novbot.Catalog.Capability
import Novbot.Lib.Check

/-!
# Accepted capabilities as grants

The runtime parses the grant strings of a package when it runs.  Names and
environment keys are checked the same way in both places.  Path scopes are not:
the runtime refuses braces, brackets and `$`, and takes `**` only as a whole
segment, while the center takes any of these in a path.
-/

namespace Novbot.Catalog

open Text Novbot.Runtime

/-- The scope has a meaning as a path glob. -/
def globScope (scope : List Char) : Bool :=
  ['\x7b', '\x7d', '[', ']', '$'].all (fun c => !scope.contains c) &&
    (split '/' scope).all fun part => !hasInfix ['*', '*'] part || part == ['*', '*']

/-- A path capability has a scope with a meaning as a path glob. -/
def CapabilityToml.globs (cap : CapabilityToml) : Bool :=
  match capSpec cap.name, cap.scope with
  | some ⟨.fsPath, _, _⟩, some scope => globScope scope.toList
  | _, _ => true

/-! ## Path scopes -/

theorem validFsScope_iff {scope : List Char} (h : validFsScope scope = true) :
    ∃ rest parts, scope = '/' :: rest ∧ '~' ∉ scope ∧ '\\' ∉ scope ∧
      (∀ c ∈ scope, isControl c = false) ∧ split '/' scope = [] :: parts ∧
      (∀ part ∈ parts, part ≠ ['.'] ∧ part ≠ ['.', '.']) ∧ ∀ part ∈ parts.dropLast, part ≠ [] := by
  unfold validFsScope at h
  split at h
  · cases h
  · next hscreen =>
    simp only [Bool.or_eq_true, Bool.not_eq_true', List.contains_iff_mem, not_or, beq_eq_false_iff_ne,
      ne_eq, not_not, List.any_eq_true, not_exists, not_and, Bool.not_eq_true] at hscreen
    obtain ⟨⟨⟨⟨-, hhead⟩, htilde⟩, hback⟩, hcontrol⟩ := hscreen
    split at h
    · next parts hparts =>
      simp only [Bool.and_eq_true, List.all_eq_true, Bool.not_eq_true', Bool.or_eq_false_iff,
        beq_eq_false_iff_ne, ne_eq, List.isEmpty_eq_false_iff] at h
      obtain ⟨hdots, hempty⟩ := h
      cases scope with
      | nil => cases hhead
      | cons c rest =>
        cases hhead
        exact ⟨rest, parts, rfl, htilde, hback, hcontrol, hparts,
          fun part hpart => ⟨(hdots part hpart).2, (hdots part hpart).1⟩, hempty⟩
    · cases h

theorem not_double_slash {scope : List Char} (h : validFsScope scope = true) :
    hasInfix ['/', '/'] scope = false := by
  obtain ⟨rest, parts, -, -, -, -, hparts, -, hempty⟩ := validFsScope_iff h
  rw [Bool.eq_false_iff, ne_eq, hasInfix_iff]
  rintro ⟨before, after, heq⟩
  have hsplit : split '/' scope = split '/' before ++ [] :: split '/' after := by
    rw [← heq, List.append_assoc, List.cons_append, split_append]
    simp [split]
  obtain ⟨first, others, hfirst⟩ := List.exists_cons_of_ne_nil (split_ne_nil '/' before)
  rw [hparts, hfirst, List.cons_append, List.cons.injEq] at hsplit
  refine hempty [] ?_ rfl
  rw [hsplit.2, List.dropLast_append_cons, List.dropLast_cons_of_ne_nil (split_ne_nil '/' after)]
  simp

/-- For parts that are named the runtime looks at `**` only. -/
theorem globParts {parts : List (List Char)} (hdots : ∀ part ∈ parts, part ≠ ['.'] ∧ part ≠ ['.', '.'])
    (hempty : ∀ part ∈ parts, part ≠ []) :
    (parts.all fun segment => !(segment.isEmpty || segment == ['.'] || segment == ['.', '.']) &&
      !(hasInfix ['*', '*'] segment && segment != ['*', '*'])) =
    parts.all fun part => !hasInfix ['*', '*'] part || part == ['*', '*'] := by
  rw [Bool.eq_iff_iff, List.all_eq_true, List.all_eq_true]
  refine forall₂_congr fun part hpart => ?_
  have h1 := hempty part hpart
  obtain ⟨h2, h3⟩ := hdots part hpart
  simp [h1, h2, h3, bne]

/-- The scope without its final slash, cut at the slashes. -/
theorem trimmed_parts {scope : List Char} {parts : List (List Char)}
    (h : validFsScope scope = true) (hparts : split '/' scope = [] :: parts) :
    (trimEndMatches (· == '/') scope = [] ∧ parts = [[]]) ∨
      ∃ named, split '/' (trimEndMatches (· == '/') scope) = [] :: named ∧
        trimEndMatches (· == '/') scope ≠ [] ∧ trimEndMatches (· == '/') scope ≠ ['/'] ∧
        (∀ part ∈ named, part ≠ []) ∧ (parts = named ∨ parts = named ++ [[]]) := by
  obtain ⟨rest, parts', hscope, -, -, -, hparts', -, hempty⟩ := validFsScope_iff h
  rw [hparts] at hparts'
  cases hparts'
  have hdouble := not_double_slash h
  obtain ⟨init, last, hlast⟩ : ∃ init last, scope = init ++ [last] :=
    ⟨_, _, (List.dropLast_append_getLast (by rw [hscope]; simp)).symm⟩
  by_cases hslash : last = '/'
  · subst hslash
    rw [hlast, trimEndMatches_append_singleton init (by rfl)]
    rw [hlast, split_append] at hparts
    have hinit : trimEndMatches (· == '/') init = init := by
      refine trimEndMatches_of_last fun c hc => ?_
      rw [beq_eq_false_iff_ne]
      rintro rfl
      rw [Bool.eq_false_iff, ne_eq, hasInfix_iff] at hdouble
      refine hdouble ⟨init.dropLast, [], ?_⟩
      have hdrop := List.dropLast_append_getLast? '/' hc
      rw [hlast, List.append_nil]
      conv_rhs => rw [← hdrop]
      simp
    rw [hinit]
    cases hi : init with
    | nil =>
      rw [hi] at hparts
      exact .inl ⟨rfl, by simpa [split] using hparts.symm⟩
    | cons c cs =>
      have hc : c = '/' := by
        rw [hlast, hi] at hscope
        exact (List.cons.inj hscope).1
      subst hc
      rw [hi] at hparts
      have hhead : split '/' ('/' :: cs) = [] :: split '/' cs := by simp [split]
      rw [hhead, List.cons_append, List.cons.injEq] at hparts
      refine .inr ⟨split '/' cs, hhead, by simp, ?_, fun part hpart => ?_, .inr hparts.2.symm⟩
      · rintro hone
        rw [hlast, hi, hone] at hdouble
        exact absurd hdouble (by decide)
      · refine hempty part ?_
        rw [← hparts.2]
        simpa [split] using hpart
  · have htrim : trimEndMatches (· == '/') scope = scope := by
      refine trimEndMatches_of_last fun c hc => ?_
      rw [hlast, List.getLast?_concat] at hc
      cases hc
      simpa using hslash
    rw [htrim]
    refine .inr ⟨parts, hparts, by simp [hscope], ?_, fun part hpart => ?_, .inl rfl⟩
    · rintro hone
      rw [hone] at hlast
      have := congrArg List.getLast? hlast
      rw [List.getLast?_concat] at this
      cases this
      exact hslash rfl
    · have hne : parts ≠ [] := List.ne_nil_of_mem hpart
      by_cases hin : part ∈ parts.dropLast
      · exact hempty part hin
      · have hend : parts.getLast? = some part := by
          rw [List.getLast?_eq_some_getLast hne]
          rw [← List.dropLast_append_getLast hne, List.mem_append] at hpart
          rw [List.mem_singleton.mp (hpart.resolve_left hin)]
        refine getLast_split hslash init ?_
        rw [← hlast, hparts]
        obtain ⟨first, others, rfl⟩ := List.exists_cons_of_ne_nil hne
        rw [List.getLast?_cons_cons]
        exact hend

/-- A path scope that the center takes is one for the runtime when it has a
meaning as a glob. -/
theorem validPathGlob_eq {scope : List Char} (h : validFsScope scope = true) :
    validPathGlob scope = globScope scope := by
  obtain ⟨rest, parts, hscope, htilde, hback, hcontrol, hparts, hdots, -⟩ := validFsScope_iff h
  have hnul : '\x00' ∉ scope := fun hmem => absurd (hcontrol _ hmem) (by decide)
  have hreject : rejectSyntax scope = false := by
    simp only [rejectSyntax, Bool.or_eq_false_iff, List.contains_eq_mem, decide_eq_false_iff_not]
    exact ⟨⟨⟨⟨by rw [hscope]; rfl, by rw [hscope]; rfl⟩, hnul⟩, htilde⟩, hback⟩
  unfold validPathGlob
  rw [if_neg (by rw [hreject]; exact Bool.false_ne_true), not_double_slash h, Bool.or_false]
  unfold globScope
  rw [hparts]
  split
  · next hspecial =>
    symm
    rw [Bool.and_eq_false_iff]
    left
    simpa only [List.all_cons, List.all_nil, Bool.and_true, ← Bool.not_or, Bool.not_eq_false',
      Bool.or_assoc] using hspecial
  · next hspecial =>
    have hclean : (['\x7b', '\x7d', '[', ']', '$'].all fun c => !scope.contains c) = true := by
      simpa only [List.all_cons, List.all_nil, Bool.and_true, ← Bool.not_or, Bool.not_eq_true',
        Bool.or_assoc, Bool.not_eq_true] using hspecial
    rw [hclean, Bool.true_and]
    rcases trimmed_parts h hparts with ⟨htrim, rfl⟩ | ⟨named, hsplit, hne, hroot, hnamed, hlast⟩
    · rw [htrim]
      rfl
    · have hsame : parts.all (fun part => !hasInfix ['*', '*'] part || part == ['*', '*']) =
          named.all fun part => !hasInfix ['*', '*'] part || part == ['*', '*'] := by
        rcases hlast with rfl | rfl
        · rfl
        · rw [List.all_append]
          exact Bool.and_true _
      have hnamedDots : ∀ part ∈ named, part ≠ ['.'] ∧ part ≠ ['.', '.'] := fun part hpart => by
        refine hdots part ?_
        rcases hlast with rfl | rfl
        · exact hpart
        · exact List.mem_append_left _ hpart
      have hbody : (if (trimEndMatches (· == '/') scope).isEmpty then ['/']
          else trimEndMatches (· == '/') scope) = trimEndMatches (· == '/') scope := by
        rw [if_neg (by simpa using hne)]
      simp only [hbody, if_neg hroot, hsplit, List.tail_cons]
      rw [globParts hnamedDots hnamed, ← hsame]
      rfl

/-! ## Grants -/

theorem validSegment_chars {part : List Char} (h : validSegment part = true) {c : Char}
    (hc : c ∈ part) : isAsciiLowercase c = true ∨ isAsciiDigit c = true ∨ c = '_' := by
  cases part with
  | nil => cases hc
  | cons first rest =>
    simp only [validSegment, Bool.and_eq_true, List.all_eq_true, Bool.or_eq_true, beq_iff_eq] at h
    rcases List.mem_cons.mp hc with rfl | hc
    · exact .inl h.1
    · exact or_assoc.mp (h.2 c hc)

/-- A name consists of its segments and the dots between them. -/
theorem validCapName_segments {name : List Char} (h : Runtime.validCapName name = true) :
    ∀ part ∈ split '.' name, validSegment part = true := by
  unfold Runtime.validCapName at h
  split at h
  · next first second hsplit =>
    simp only [Bool.and_eq_true] at h
    intro part hpart
    simp only [hsplit, List.mem_cons, List.not_mem_nil, or_false] at hpart
    rcases hpart with rfl | rfl
    · exact h.1
    · exact h.2
  · next first second third hsplit =>
    simp only [Bool.and_eq_true] at h
    intro part hpart
    simp only [hsplit, List.mem_cons, List.not_mem_nil, or_false] at hpart
    rcases hpart with rfl | rfl | rfl
    · exact h.1.1
    · exact h.1.2
    · exact h.2
  · cases h

theorem not_mem_of_validCapName {name : List Char} (h : Runtime.validCapName name = true) {c : Char}
    (hc : isAsciiLowercase c = false ∧ isAsciiDigit c = false ∧ c ≠ '_' ∧ c ≠ '.') : c ∉ name := by
  intro hmem
  rcases @mem_split '.' c name hmem with rfl | ⟨part, hpart, hpartMem⟩
  · exact hc.2.2.2 rfl
  · rcases validSegment_chars (validCapName_segments h part hpart) hpartMem with hl | hd | rfl
    · rw [hc.1] at hl
      cases hl
    · rw [hc.2.1] at hd
      cases hd
    · exact hc.2.2.1 rfl

/-- The runtime's loop takes the grant. -/
def Runs (grant : String) : Prop := ∃ set, GrantSet.parse [grant] = .ok set

/-- A round of the loop succeeds or not whatever was parsed before. -/
theorem add_ok_iff (set : GrantSet) (grant : String) : (∃ set', set.add grant = .ok set') ↔
    ∃ name scope cap parsed, splitGrant grant = .ok (name, scope) ∧
      capabilities.find? (·.name == name) = some cap ∧
      parseScope grant cap.scope scope = .ok parsed := by
  unfold GrantSet.add
  simp only [Check.bind_eq_ok, Prod.exists]
  constructor
  · rintro ⟨set', name, scope, hsplit, h⟩
    split at h
    · cases h
    · next cap hfind =>
      simp only [Check.bind_eq_ok] at h
      obtain ⟨parsed, hparsed, -⟩ := h
      exact ⟨name, scope, cap, parsed, hsplit, hfind, hparsed⟩
  · rintro ⟨name, scope, cap, parsed, hsplit, hfind, hparsed⟩
    refine ⟨set.push name parsed, name, scope, hsplit, ?_⟩
    rw [hfind]
    simp [hparsed]

/-- Grants are parsed when each of them is. -/
theorem parse_ok_iff (grants : List String) :
    (∃ set, GrantSet.parse grants = .ok set) ↔ ∀ grant ∈ grants, Runs grant := by
  unfold Runs GrantSet.parse
  rw [Check.foldlM_ok_iff add_ok_iff]
  refine forall₂_congr fun grant _ => ?_
  rw [Check.foldlM_ok_iff add_ok_iff]
  simp

theorem splitGrant_scoped {name scope : String} (hname : Runtime.validCapName name.toList = true)
    (hnul : '\x00' ∉ scope.toList) (hscope : scope.toList ≠ []) :
    splitGrant (grantString name (some scope)) = .ok (name, some scope) := by
  have hcolon : ':' ∉ name.toList := not_mem_of_validCapName hname (by decide)
  have hnulName : '\x00' ∉ name.toList := not_mem_of_validCapName hname (by decide)
  have hchars : (grantString name (some scope)).toList = name.toList ++ ':' :: scope.toList := by
    simp [grantString]
  have hcut : splitOnce ':' (name.toList ++ ':' :: scope.toList) =
      some (name.toList, scope.toList) := splitOnce_some.mpr ⟨rfl, hcolon⟩
  unfold splitGrant
  simp only [hchars, hcut]
  rw [if_neg]
  · simp [hscope, hname]
  · simp [hnulName, hnul]

theorem splitGrant_bare {name : String} (hname : Runtime.validCapName name.toList = true) :
    splitGrant name = .ok (name, none) := by
  have hcolon : ':' ∉ name.toList := not_mem_of_validCapName hname (by decide)
  have hnul : '\x00' ∉ name.toList := not_mem_of_validCapName hname (by decide)
  have hempty : name.toList ≠ [] := by
    intro hnil
    rw [hnil] at hname
    cases hname
  have hcut : splitOnce ':' name.toList = none := splitOnce_none.mpr hcolon
  unfold splitGrant
  simp only [hcut]
  rw [if_neg]
  · simp [hname]
  · simp [hempty, hnul]

/-! ## One capability -/

def CapKind.requirement : CapKind → ScopeRequirement
  | .fsPath => .pathGlob
  | .env => .envKey
  | .bare => .none

/-- The two capability tables agree. -/
theorem capSpec_find {name : String} {spec : CapSpec} (h : capSpec name = some spec) :
    capabilities.find? (·.name == name) = some ⟨name, spec.kind.requirement⟩ := by
  have htable : ∀ entry ∈ capSpecs, capabilities.find? (·.name == entry.1) =
      some ⟨entry.1, entry.2.kind.requirement⟩ := by decide
  obtain ⟨before, after, hcut, -⟩ := List.lookup_eq_some_iff.mp h
  refine htable (name, spec) ?_
  rw [hcut]
  exact List.mem_append_right _ List.mem_cons_self

theorem parseEnvScope_isSome (scope : List Char) :
    (parseEnvScope scope).isSome = validEnvScope scope := by
  unfold parseEnvScope validEnvScope
  cases (stripSuffix '*' scope).getD scope with
  | nil => rfl
  | cons ch chars =>
    show Option.isSome (ite _ _ _) = _
    split
    · next hfirst => simp_all
    · next hfirst =>
      split
      · next hrest =>
        simp only [Bool.not_eq_true'] at hrest
        simp [hrest]
      · next hrest =>
        simp only [Bool.not_eq_true', Bool.not_eq_false] at hfirst hrest
        simp [hfirst, hrest]

/-- An environment scope has no character outside its pattern. -/
theorem validEnvScope_chars {scope : List Char} (h : validEnvScope scope = true) {c : Char}
    (hc : c ∈ scope) : isAsciiUppercase c = true ∨ isAsciiDigit c = true ∨ c = '_' ∨ c = '*' := by
  have hcore : c ∈ (stripSuffix '*' scope).getD scope ∨ c = '*' := by
    unfold stripSuffix
    split
    · next hlast =>
      have hcut := List.dropLast_append_getLast? '*' hlast
      rw [← hcut, List.mem_append, List.mem_singleton] at hc
      exact hc
    · exact .inl hc
  unfold validEnvScope at h
  split at h
  · cases h
  · next ch chars heq =>
    rw [heq] at hcore
    simp only [Bool.and_eq_true, Bool.or_eq_true, beq_iff_eq, List.all_eq_true] at h
    rcases hcore with hcore | rfl
    · rcases List.mem_cons.mp hcore with rfl | hcore
      · exact h.1.imp_right fun h => .inr (.inl h)
      · rcases h.2 c hcore with (h | h) | h
        · exact .inl h
        · exact .inr (.inl h)
        · exact .inr (.inr (.inl h))
    · exact .inr (.inr (.inr rfl))

theorem validEnvScope_ne_nil {scope : List Char} (h : validEnvScope scope = true) : scope ≠ [] := by
  rintro rfl
  cases h

/-- What a capability that passes is made of. -/
theorem validateCapability_ok {cap : CapabilityToml} {view : CapabilityView}
    (h : validateCapability cap = .ok view) :
    Runtime.validCapName cap.name.toList = true ∧ ∃ spec scope, capSpec cap.name = some spec ∧
      checkScope cap.name spec.kind cap.scope = .ok scope ∧
      view.grant = grantString cap.name scope ∧ view.name = cap.name ∧ view.scope = scope := by
  unfold validateCapability at h
  simp only [Check.throw_bind, Check.ite_throw_eq_ok, Bool.not_eq_true', Bool.not_eq_false] at h
  obtain ⟨hname, h⟩ := h
  split at h
  · exact absurd h Check.throw_ne_ok
  · next spec hspec =>
    simp only [Check.bind_eq_ok, Check.pure_eq_ok] at h
    obtain ⟨scope, hscope, rfl⟩ := h
    exact ⟨hname, spec, scope, hspec, hscope, rfl, rfl, rfl⟩

/-- The scope is one for the kind of capability. -/
def ScopeFits : CapKind → Option String → Prop
  | .fsPath, some text => validFsScope text.toList = true
  | .env, some text => validEnvScope text.toList = true
  | .bare, none => True
  | _, _ => False

theorem checkScope_ok {name : String} {kind : CapKind} {given scope : Option String}
    (h : checkScope name kind given = .ok scope) : scope = given ∧ ScopeFits kind given := by
  cases kind with
  | fsPath =>
    cases given with
    | none => cases h
    | some text =>
      simp only [checkScope] at h
      split at h
      · next hvalid => cases h; exact ⟨rfl, hvalid⟩
      · cases h
  | env =>
    cases given with
    | none => cases h
    | some text =>
      simp only [checkScope] at h
      split at h
      · next hvalid => cases h; exact ⟨rfl, hvalid⟩
      · cases h
  | bare =>
    cases given with
    | none => cases h; exact ⟨rfl, trivial⟩
    | some text => cases h

/-- A capability that passes has a grant for the runtime when its scope has a
meaning there. -/
theorem runs_iff {cap : CapabilityToml} {view : CapabilityView}
    (h : validateCapability cap = .ok view) : Runs view.grant ↔ cap.globs = true := by
  obtain ⟨hname, spec, scope, hspec, hscope, hgrant, -, -⟩ := validateCapability_ok h
  obtain ⟨rfl, hvalid⟩ := checkScope_ok hscope
  have hfind := capSpec_find hspec
  rw [hgrant, Runs, GrantSet.parse, Check.foldlM_ok_iff add_ok_iff, List.forall_mem_singleton]
  unfold CapabilityToml.globs
  rw [hspec]
  obtain ⟨kind, risk, bare⟩ := spec
  cases hgiven : cap.scope with
  | none =>
    rw [hgiven] at hvalid
    cases kind with
    | bare =>
      refine iff_of_true ⟨cap.name, none, _, .bare, ?_, hfind, rfl⟩ rfl
      exact splitGrant_bare hname
    | fsPath => exact hvalid.elim
    | env => exact hvalid.elim
  | some text =>
    rw [hgiven] at hvalid
    cases kind with
    | bare => exact hvalid.elim
    | fsPath =>
      have hchars : '\x00' ∉ text.toList := by
        obtain ⟨-, -, -, -, -, hcontrol, -⟩ := validFsScope_iff hvalid
        exact fun hmem => absurd (hcontrol _ hmem) (by decide)
      have hne : text.toList ≠ [] := by
        obtain ⟨rest, -, hscope, -⟩ := validFsScope_iff hvalid
        simp [hscope]
      have hsplit := splitGrant_scoped hname hchars hne
      have hglob := validPathGlob_eq hvalid
      constructor
      · rintro ⟨name, scope, found, parsed, hcut, hfound, hparse⟩
        rw [hsplit] at hcut
        cases hcut
        rw [hfind] at hfound
        cases hfound
        simp only [CapKind.requirement, parseScope] at hparse
        split at hparse
        · next htrue => exact hglob.symm.trans htrue
        · cases hparse
      · intro htrue
        refine ⟨cap.name, some text, _, .path text, hsplit, hfind, ?_⟩
        simp only [CapKind.requirement, parseScope]
        rw [if_pos (hglob.trans htrue)]
    | env =>
      have hchars : '\x00' ∉ text.toList := by
        intro hmem
        rcases validEnvScope_chars hvalid hmem with h | h | h | h <;> exact absurd h (by decide)
      have hsplit := splitGrant_scoped hname hchars (validEnvScope_ne_nil hvalid)
      obtain ⟨pattern, hpattern⟩ : ∃ pattern, parseEnvScope text.toList = some pattern := by
        rw [← Option.isSome_iff_exists, parseEnvScope_isSome]
        exact hvalid
      refine iff_of_true ⟨cap.name, some text, _, .env pattern, hsplit, hfind, ?_⟩ rfl
      simp only [CapKind.requirement, parseScope, hpattern]

/-- The grants of accepted capabilities are grants for the runtime exactly when
every path scope has a meaning as a glob. -/
theorem accepted_grants_parse_iff {caps : List CapabilityToml} {views : List CapabilityView}
    (h : validateCapabilities caps = .ok views) :
    (∃ set, GrantSet.parse (views.map (·.grant)) = .ok set) ↔ ∀ cap ∈ caps, cap.globs = true := by
  rw [parse_ok_iff]
  simp only [List.forall_mem_map]
  constructor
  · intro hruns cap hcap
    obtain ⟨view, hview, hok⟩ := Check.exists_of_mem_left (Check.mapM_eq_ok.mp h) hcap
    exact (runs_iff hok).mp (hruns view hview)
  · intro hglobs view hview
    obtain ⟨cap, hcap, hok⟩ := Check.exists_of_mem_right (Check.mapM_eq_ok.mp h) hview
    exact (runs_iff hok).mpr (hglobs cap hcap)

/-- A file scope and an environment key. -/
def sampleCapabilities : List CapabilityToml :=
  [⟨"fs.read", some "/etc/**", none⟩, ⟨"env.read", some "NOVBOT_*", none⟩]

theorem accepted_grants_parse_iff_sample :
    ∃ views, validateCapabilities sampleCapabilities = .ok views ∧
      ((∃ set, GrantSet.parse (views.map (·.grant)) = .ok set) ↔
        ∀ cap ∈ sampleCapabilities, cap.globs = true) := by
  have hok : (validateCapabilities sampleCapabilities).isOk = true := by decide
  cases h : validateCapabilities sampleCapabilities with
  | error err =>
    rw [h] at hok
    cases hok
  | ok views => exact ⟨views, rfl, accepted_grants_parse_iff h⟩

/-- A bracket in a path scope passes at upload, and no run gets past the grants. -/
theorem bracket_scope_never_runs :
    ∃ views, validateCapabilities [⟨"fs.read", some "/var/log/app[1].log", none⟩] = .ok views ∧
      GrantSet.parse (views.map (·.grant)) =
        .error (.malformed "fs.read:/var/log/app[1].log") :=
  ⟨[⟨"fs.read:/var/log/app[1].log", "fs.read", some "/var/log/app[1].log", "medium",
    "Read files at /var/log/app[1].log.", none⟩], by decide, by decide⟩

end Novbot.Catalog
