import Mathlib.Data.List.TakeWhile
import Novbot.Runtime.Globs
import Novbot.Runtime.Reads

/-!
# The scope of a granted glob

`glob_matches` of `novbot-skill-runtime/src/path.rs` makes the literal start of a pattern
canonical and matches the candidate against the result.  `scopeExact_iff` says when the
paths in scope are those below the directory that the start resolves to, by names that the
rest of the pattern matches.

Two things go wrong.  The last component of the start is not followed when it is a link,
and the names of a canonical directory are read as a pattern again.
-/

namespace Novbot.Runtime

open Text FileTree Glob

/-! ## Paths and their text -/

/-- A component of a normalised path. -/
def IsName (name : Name) : Prop := Plain name ∧ '/' ∉ name

/-- A component of a path that `reject_syntax` lets through. -/
def Clean (name : Name) : Prop := IsName name ∧ '\x00' ∉ name ∧ '~' ∉ name ∧ '\\' ∉ name

theorem split_displayPath {path : Path} (h : ∀ name ∈ path, '/' ∉ name) :
    split '/' (path.flatMap ('/' :: ·)) = [] :: path := by
  induction path with
  | nil => rfl
  | cons name path ih =>
    have hname : '/' ∉ name := h name List.mem_cons_self
    have hrest := ih fun other hother => h other (List.mem_cons_of_mem _ hother)
    rw [List.flatMap_cons, List.cons_append, split, if_pos rfl]
    cases path with
    | nil =>
      rw [List.flatMap_nil, List.append_nil, split_of_not_mem hname]
    | cons next path =>
      rw [List.flatMap_cons, List.cons_append] at hrest ⊢
      rw [split, if_pos rfl] at hrest
      rw [split_append, split_of_not_mem hname, (List.cons.inj hrest).2]
      rfl

/-- Slashes at the end add no segments. -/
theorem split_trimmed (text : List Char) :
    (split '/' (trimEndMatches (· == '/') text)).filter (· ≠ []) =
      (split '/' text).filter (· ≠ []) := by
  induction text using List.reverseRecOn with
  | nil => rfl
  | append_singleton text c ih =>
    by_cases hc : c = '/'
    · subst hc
      rw [trimEndMatches_append_singleton text rfl, ih, split_append, List.filter_append]
      simp [split]
    · rw [trimEndMatches_of_last]
      intro d hd
      rw [List.getLast?_concat] at hd
      cases hd
      exact beq_eq_false_iff_ne.mpr hc

theorem segments_eq (text : List Char) : segments text = (split '/' text).filter (· ≠ []) := by
  rw [segments, trimSlash]
  split
  · exact split_trimmed text
  · rfl

theorem segments_displayPath {path : Path} (h : ∀ name ∈ path, IsName name) :
    segments (displayPath path) = path := by
  rw [segments_eq, displayPath]
  split
  · next hnil =>
    subst hnil
    rfl
  · rw [split_displayPath fun name hname => (h name hname).2, List.filter_cons_of_neg (by simp)]
    refine List.filter_eq_self.mpr fun name hname => ?_
    exact decide_eq_true (h name hname).1.1

theorem trimSlash_displayPath {path : Path} (h : ∀ name ∈ path, IsName name) :
    trimSlash (displayPath path) = displayPath path := by
  rcases List.eq_nil_or_concat path with rfl | ⟨front, last, rfl⟩
  · rfl
  · obtain ⟨⟨hne, -, -⟩, hslash⟩ := h last (by simp)
    obtain ⟨start, c, rfl⟩ := (List.eq_nil_or_concat last).resolve_left hne
    rw [List.concat_eq_append] at hslash
    rw [List.concat_eq_append, List.concat_eq_append]
    have htext : displayPath (front ++ [start ++ [c]]) =
        (front.flatMap ('/' :: ·) ++ '/' :: start) ++ [c] := by
      simp [displayPath]
    rw [htext]
    refine trimSlash_concat _ ?_
    rintro rfl
    exact hslash (by simp)

/-- Paths of names are told apart by their text. -/
theorem displayPath_inj {path other : Path} (h : ∀ name ∈ path, IsName name)
    (hother : ∀ name ∈ other, IsName name) :
    displayPath path = displayPath other ↔ path = other := by
  constructor
  · intro htext
    rw [← segments_displayPath h, htext, segments_displayPath hother]
  · rintro rfl
    rfl

theorem displayPath_concat {path : Path} (h : ∀ name ∈ path, IsName name) (name : Name) :
    (if displayPath path = ['/'] then [] else displayPath path) ++ '/' :: name =
      displayPath (path ++ [name]) := by
  have hroot : displayPath path = ['/'] ↔ path = [] :=
    displayPath_inj h fun _ hname => absurd hname List.not_mem_nil
  by_cases hpath : path = []
  · rw [if_pos (hroot.mpr hpath), hpath, displayPath, if_neg (by simp)]
    simp
  · rw [if_neg (mt hroot.mp hpath), displayPath, if_neg hpath, displayPath, if_neg (by simp)]
    simp

/-! ## Patterns -/

theorem mem_of_mem_split {sep c : Char} {text part : List Char} (hpart : part ∈ split sep text)
    (hc : c ∈ part) : c ≠ sep ∧ c ∈ text := by
  induction text generalizing part with
  | nil =>
    rw [split, List.mem_singleton] at hpart
    rw [hpart] at hc
    cases hc
  | cons d text ih =>
    by_cases hd : d = sep
    · rw [split, if_pos hd] at hpart
      rcases List.mem_cons.mp hpart with rfl | hpart
      · cases hc
      · exact ⟨(ih hpart hc).1, List.mem_cons_of_mem _ (ih hpart hc).2⟩
    · obtain ⟨first, parts, hparts, hsplit⟩ := split_cons hd text
      rw [hsplit] at hpart
      rw [hparts] at ih
      rcases List.mem_cons.mp hpart with rfl | hpart
      · rcases List.mem_cons.mp hc with rfl | hc
        · exact ⟨hd, List.mem_cons_self⟩
        · have hfirst := ih List.mem_cons_self hc
          exact ⟨hfirst.1, List.mem_cons_of_mem _ hfirst.2⟩
      · have hrest := ih (List.mem_cons_of_mem _ hpart) hc
        exact ⟨hrest.1, List.mem_cons_of_mem _ hrest.2⟩

theorem foldlM_lexicalPart {parts : List Name} (h : ∀ part ∈ parts, part ≠ [] → Clean part)
    (done : Path) : parts.foldlM lexicalPart done = some (done ++ parts.filter (· ≠ [])) := by
  induction parts generalizing done with
  | nil => simp
  | cons part parts ih =>
    have hrest := ih fun other hother => h other (List.mem_cons_of_mem _ hother)
    rw [List.foldlM_cons]
    by_cases hempty : part = []
    · subst hempty
      exact hrest done
    · obtain ⟨⟨⟨-, hhere, hup⟩, -⟩, hnul, htilde, hback⟩ := h part List.mem_cons_self hempty
      have hpart : lexicalPart done part = some (done ++ [part]) := by
        rw [lexicalPart, if_neg (by rw [not_or]; exact ⟨hempty, hhere⟩), if_neg hup, if_neg]
        simp [hnul, htilde, hback]
      rw [hpart]
      refine (hrest _).trans ?_
      rw [List.filter_cons_of_pos (by simpa using hempty), List.append_assoc, List.singleton_append]

/-- The segments of an absolute path without steps up are its normal form. -/
theorem lexicalNormalize_eq {text : List Char} (hhead : text.head? = some '/')
    (h : ∀ part ∈ split '/' text, part ≠ [] → Clean part) :
    lexicalNormalize text = some (segments text) := by
  obtain ⟨rest, rfl⟩ : ∃ rest, text = '/' :: rest := by
    cases text with
    | nil => cases hhead
    | cons c rest =>
      cases hhead
      exact ⟨rest, rfl⟩
  rw [lexicalNormalize, if_pos hhead, segments_eq, split, if_pos rfl, List.tail_cons,
    foldlM_lexicalPart, List.nil_append, List.filter_cons_of_neg (by simp)]
  intro part hpart
  refine h part ?_
  rw [split, if_pos rfl]
  exact List.mem_cons_of_mem _ hpart

theorem rejectSyntax_eq_false {text : List Char} :
    rejectSyntax text = false ↔
      text.head? = some '/' ∧ '\x00' ∉ text ∧ '~' ∉ text ∧ '\\' ∉ text := by
  cases text with
  | nil => simp [rejectSyntax]
  | cons c text => simp [rejectSyntax, and_assoc]

/-- The segments of a valid pattern are clean. -/
theorem clean_of_valid {pattern : List Char} (h : validPathGlob pattern = true) :
    rejectSyntax pattern = false ∧ ∀ part ∈ split '/' pattern, part ≠ [] → Clean part := by
  unfold validPathGlob at h
  split at h
  · cases h
  · next hscreen =>
    rw [Bool.not_eq_true] at hscreen
    refine ⟨hscreen, fun part hpart hne => ?_⟩
    obtain ⟨hhead, hnul, htilde, hback⟩ := rejectSyntax_eq_false.mp hscreen
    have hchars : ∀ c ∈ part, c ≠ '/' ∧ c ∈ pattern := fun c hc => mem_of_mem_split hpart hc
    refine ⟨⟨?_, fun hslash => (hchars _ hslash).1 rfl⟩, fun hc => hnul (hchars _ hc).2,
      fun hc => htilde (hchars _ hc).2, fun hc => hback (hchars _ hc).2⟩
    have htrimmed : part ∈ split '/' (trimEndMatches (· == '/') pattern) := by
      have hmem : part ∈ (split '/' pattern).filter (· ≠ []) :=
        List.mem_filter.mpr ⟨hpart, decide_eq_true hne⟩
      rw [← split_trimmed] at hmem
      exact (List.mem_filter.mp hmem).1
    obtain ⟨more, hmore⟩ := prefix_trimEndMatches (· == '/') pattern
    generalize trimEndMatches (· == '/') pattern = trimmed at h htrimmed hmore
    split at h
    · cases h
    · cases trimmed with
      | nil =>
        rw [split, List.mem_singleton] at htrimmed
        exact absurd htrimmed hne
      | cons c trimmed =>
        have hc : c = '/' := by
          rw [← hmore] at hhead
          exact Option.some.inj hhead
        subst hc
        rw [split, if_pos rfl] at htrimmed
        have htail : part ∈ split '/' trimmed := (List.mem_cons.mp htrimmed).resolve_left hne
        have hbody : (if ('/' :: trimmed).isEmpty = true then ['/'] else '/' :: trimmed) =
            '/' :: trimmed := if_neg Bool.false_ne_true
        dsimp only at h
        rw [hbody] at h
        split at h
        · next hroot =>
          cases hroot
          rw [split, List.mem_singleton] at htail
          exact absurd htail hne
        · rw [split, if_pos rfl, List.tail_cons, List.all_eq_true] at h
          have hpart := h part htail
          simp only [Bool.and_eq_true, Bool.not_eq_true', Bool.or_eq_false_iff, beq_eq_false_iff_ne,
            ne_eq] at hpart
          exact ⟨hne, hpart.1.1.2, hpart.1.2⟩

theorem clean_displayPath {path : Path} (h : ∀ name ∈ path, Clean name) :
    rejectSyntax (displayPath path) = false ∧
      ∀ part ∈ split '/' (displayPath path), part ≠ [] → Clean part := by
  have hchars : ∀ c, c ≠ '/' → (∀ name ∈ path, c ∉ name) → c ∉ displayPath path := by
    intro c hc hnames hmem
    rw [displayPath] at hmem
    split at hmem
    · exact hc (List.mem_singleton.mp hmem)
    · obtain ⟨name, hname, hmem⟩ := List.mem_flatMap.mp hmem
      exact hnames name hname ((List.mem_cons.mp hmem).resolve_left hc)
  have hhead : (displayPath path).head? = some '/' := by
    cases path with
    | nil => rfl
    | cons name path => rw [displayPath, if_neg (List.cons_ne_nil _ _), List.flatMap_cons]; rfl
  refine ⟨rejectSyntax_eq_false.mpr ⟨hhead, ?_, ?_, ?_⟩, ?_⟩
  · exact hchars _ (by decide) fun name hname => (h name hname).2.1
  · exact hchars _ (by decide) fun name hname => (h name hname).2.2.1
  · exact hchars _ (by decide) fun name hname => (h name hname).2.2.2
  · intro part hpart hne
    have hmem : part ∈ segments (displayPath path) := by
      rw [segments_eq]
      exact List.mem_filter.mpr ⟨hpart, decide_eq_true hne⟩
    rw [segments_displayPath fun name hname => (h name hname).1] at hmem
    exact h part hmem

section
variable {fs : FileSystem} {pattern : List Char}

theorem canonicalLiteral_eq {text : List Char} (hscreen : rejectSyntax text = false)
    (h : ∀ part ∈ split '/' text, part ≠ [] → Clean part) :
    canonicalLiteral fs text = some (displayPath (canonicalOwn fs (segments text))) := by
  have hlexical := lexicalNormalize_eq (rejectSyntax_eq_false.mp hscreen).1 h
  obtain ⟨resolved, hresolve, hown⟩ := resolve_of_normalize hscreen hlexical
  rw [canonicalLiteral, hresolve, Option.map_some, hown]

/-- The literal start of a pattern. -/
def literalStart (pattern : List Char) : Path :=
  (segments pattern).takeWhile fun segment => !hasMeta segment

/-- The rest of a pattern, from its first wildcard on. -/
def globRest (pattern : List Char) : List Name :=
  (segments pattern).drop (literalStart pattern).length

theorem literalStart_append (pattern : List Char) :
    literalStart pattern ++ globRest pattern = segments pattern := by
  have hprefix : literalStart pattern <+: segments pattern := List.takeWhile_prefix _
  rw [globRest]
  exact List.prefix_iff_eq_append.mp hprefix

theorem clean_segments (hvalid : validPathGlob pattern = true) :
    ∀ name ∈ segments pattern, Clean name := by
  intro name hname
  rw [segments_eq, List.mem_filter, decide_eq_true_iff] at hname
  exact (clean_of_valid hvalid).2 name hname.1 hname.2

theorem displayPath_append {path : Path} (hpath : ∀ name ∈ path, IsName name) (rest : List Name)
    (hrest : ∀ name ∈ rest, IsName name) :
    rest.foldl (fun out segment => (if out = ['/'] then [] else out) ++ '/' :: segment)
      (displayPath path) = displayPath (path ++ rest) := by
  induction rest generalizing path with
  | nil => rw [List.append_nil]; rfl
  | cons name rest ih =>
    have hname := hrest name List.mem_cons_self
    rw [List.foldl_cons, displayPath_concat hpath, ih, List.append_assoc, List.singleton_append]
    · intro other hother
      rcases List.mem_append.mp hother with hother | hother
      · exact hpath other hother
      · rwa [List.mem_singleton.mp hother]
    · exact fun other hother => hrest other (List.mem_cons_of_mem _ hother)

/-- A canonical pattern: the resolved start, and the rest as it was. -/
theorem segments_canonicalPattern (hvalid : validPathGlob pattern = true)
    (hown : ∀ name ∈ canonicalOwn fs (literalStart pattern), IsName name) :
    segments (canonicalPattern fs pattern) =
      canonicalOwn fs (literalStart pattern) ++ globRest pattern := by
  have hsegments := clean_segments hvalid
  rw [← literalStart_append] at hsegments
  have hstart : ∀ name ∈ literalStart pattern, Clean name := fun name hname =>
    hsegments name (List.mem_append_left _ hname)
  have hrest : ∀ name ∈ globRest pattern, IsName name := fun name hname =>
    (hsegments name (List.mem_append_right _ hname)).1
  obtain ⟨hscreen, hclean⟩ := clean_displayPath hstart
  have hliteral : canonicalLiteral fs (displayPath (literalStart pattern)) =
      some (displayPath (canonicalOwn fs (literalStart pattern))) := by
    rw [canonicalLiteral_eq hscreen hclean, segments_displayPath fun name hname => (hstart name hname).1]
  have htext : canonicalPattern fs pattern =
      displayPath (canonicalOwn fs (literalStart pattern) ++ globRest pattern) := by
    rw [canonicalPattern]
    change List.foldl _ (trimSlash ((canonicalLiteral fs (displayPath (literalStart pattern))).getD
      _)) (globRest pattern) = _
    rw [hliteral, Option.getD_some, trimSlash_displayPath hown, displayPath_append hown _ hrest]
  rw [htext, segments_displayPath]
  intro name hname
  rcases List.mem_append.mp hname with hname | hname
  · exact hown name hname
  · exact hrest name hname

end

/-! ## What segments match -/

theorem matches_self (bytes : List UInt8) : Matches Fits (bytes.map bytePiece) bytes := by
  refine Matches.pointwise (List.forall₂_map_left_iff.mpr (List.forall₂_same.mpr ?_))
  intro byte _ item hitem
  rw [bytePiece, piece] at hitem
  split at hitem
  · cases hitem
  · split at hitem
    · cases hitem
      trivial
    · cases hitem
      rfl

theorem not_meta_iff {c : Char} : isMeta c = false ↔ c ≠ '*' ∧ c ≠ '?' := by
  rw [isMeta, Bool.or_eq_false_iff, beq_eq_false_iff_ne, beq_eq_false_iff_ne]

/-- A name without wildcards stands for itself. -/
theorem bytesMatch_literal {name segment : Name} (h : hasMeta name = false) :
    BytesMatch name segment ↔ name = segment := by
  constructor
  · intro hmatch
    have hpieces : (utf8 name).map bytePiece = ((utf8 name).map some).map .one := by
      have hchars : ∀ c ∈ name, (String.utf8EncodeChar c).map bytePiece =
          ((String.utf8EncodeChar c).map some).map .one := by
        intro c hc
        obtain ⟨hstar, hquestion⟩ :=
          not_meta_iff.mp (Bool.not_eq_true _ ▸ (List.any_eq_false.mp h) c hc)
        exact utf8_map_piece hstar hquestion
      simp only [utf8, List.map_flatMap]
      exact List.flatMap_congr hchars
    rw [BytesMatch, hpieces, ← List.append_nil (List.map _ _)] at hmatch
    obtain ⟨front, rest, hcut, hfront, hrest⟩ := Matches.of_prepend hmatch
    rw [forall₂_fits] at hfront
    rw [matches_nil_iff] at hrest
    rw [hrest, List.append_nil, ← hfront] at hcut
    exact (utf8_inj.mp hcut).symm
  · rintro rfl
    exact matches_self _

/-- A name with a letter for each wildcard. -/
def filled (name : Name) : Name := name.map fun c => if isMeta c then 'x' else c

theorem bytesMatch_filled (name : Name) : BytesMatch name (filled name) := by
  induction name with
  | nil => exact .nil
  | cons c name ih =>
    rw [BytesMatch, filled, List.map_cons, utf8_cons, utf8_cons, List.map_append]
    refine Matches.append ?_ ih
    by_cases hstar : c = '*'
    · subst hstar
      have hrun : Matches Fits [.run] (String.utf8EncodeChar 'x') := matches_run_all
      exact hrun
    · by_cases hquestion : c = '?'
      · subst hquestion
        exact .one trivial .nil
      · rw [if_neg (by rw [not_meta_iff.mpr ⟨hstar, hquestion⟩]; exact Bool.false_ne_true)]
        exact matches_self _

/-- A name with a wildcard is another name when it is filled. -/
theorem filled_ne {name : Name} (h : hasMeta name = true) : filled name ≠ name := by
  intro hsame
  obtain ⟨c, hc, hmeta⟩ := List.any_eq_true.mp h
  have hfilled : c ∈ filled name := hsame.symm ▸ hc
  obtain ⟨d, -, hd⟩ := List.mem_map.mp hfilled
  split at hd
  · subst hd
    exact absurd hmeta (by decide)
  · next hnot =>
    subst hd
    exact hnot hmeta

/-- The letter keeps the name a name. -/
theorem isName_filled {name : Name} (h : IsName name) : IsName (filled name) := by
  obtain ⟨⟨hne, hhere, hup⟩, hslash⟩ := h
  have hback : ∀ other : Name, (∀ c ∈ other, c ≠ 'x') → filled name = other → name = other := by
    intro other hother hsame
    subst hsame
    have hnone : ∀ c ∈ name, isMeta c = false := by
      intro c hc
      by_contra hmeta
      rw [Bool.not_eq_false] at hmeta
      exact hother 'x' (List.mem_map.mpr ⟨c, hc, if_pos hmeta⟩) rfl
    refine (List.map_id' name).symm.trans (List.map_congr_left fun c hc => ?_)
    exact (if_neg (by rw [hnone c hc]; exact Bool.false_ne_true)).symm
  refine ⟨⟨?_, ?_, ?_⟩, ?_⟩
  · exact fun hsame => hne (List.map_eq_nil_iff.mp hsame)
  · exact fun hsame => hhere (hback _ (by simp) hsame)
  · exact fun hsame => hup (hback _ (by simp) hsame)
  · intro hmem
    obtain ⟨c, hc, hsame⟩ := List.mem_map.mp hmem
    split at hsame
    · exact absurd hsame (by decide)
    · subst hsame
      exact hslash hc

/-! ## What paths match -/

/-- The paths that a list of segments matches. -/
abbrev PathMatch (pattern : List Name) (path : Path) : Prop :=
  Matches BytesMatch (pattern.map part) path

theorem pathMatch_self (path : Path) : PathMatch path path := by
  refine Matches.pointwise (List.forall₂_map_left_iff.mpr (List.forall₂_same.mpr ?_))
  intro name _ item hitem
  unfold part at hitem
  split at hitem
  · cases hitem
  · cases hitem
    exact matches_self _

/-- Each segment of a pattern stands for its filled name. -/
theorem pathMatch_filled (name : Name) : PathMatch [name] [filled name] := by
  rw [PathMatch, List.map_singleton, part]
  split
  · exact .run [filled name] .nil
  · exact .one (bytesMatch_filled name) .nil

theorem pathMatch_append {pattern rest : List Name} {path more : Path} (h : PathMatch pattern path)
    (hmore : PathMatch rest more) : PathMatch (pattern ++ rest) (path ++ more) := by
  rw [PathMatch, List.map_append]
  exact Matches.append h hmore

/-- Names without wildcards in front of a pattern stand for themselves. -/
theorem pathMatch_literal {names rest : List Name} (h : ∀ name ∈ names, hasMeta name = false)
    {path : Path} :
    PathMatch (names ++ rest) path ↔ ∃ more, path = names ++ more ∧ PathMatch rest more := by
  induction names generalizing path with
  | nil => simp
  | cons name names ih =>
    have hname : hasMeta name = false := h name List.mem_cons_self
    have hpart : part name = .one name := by
      refine if_neg ?_
      rintro rfl
      cases hname
    have hrest := fun path => @ih (fun other hother => h other (List.mem_cons_of_mem _ hother)) path
    rw [PathMatch, List.cons_append, List.map_cons, hpart, matches_one_iff]
    constructor
    · rintro ⟨segment, tail, rfl, hsegment, htail⟩
      obtain rfl := (bytesMatch_literal hname).mp hsegment
      obtain ⟨more, rfl, hmore⟩ := (hrest tail).mp htail
      exact ⟨more, rfl, hmore⟩
    · rintro ⟨more, rfl, hmore⟩
      exact ⟨name, names ++ more, rfl, (bytesMatch_literal hname).mpr rfl,
        (hrest _).mpr ⟨more, rfl, hmore⟩⟩

/-- The shortest path that a pattern stands for. -/
def shortest (pattern : List Name) : Path :=
  (pattern.filter (· ≠ ['*', '*'])).map filled

theorem pathMatch_shortest (pattern : List Name) : PathMatch pattern (shortest pattern) := by
  induction pattern with
  | nil => exact .nil
  | cons name pattern ih =>
    rw [PathMatch, List.map_cons, part, shortest]
    split
    · next hdeep =>
      rw [List.filter_cons_of_neg (by simp [hdeep])]
      exact .run [] ih
    · next hdeep =>
      rw [List.filter_cons_of_pos (by simpa using hdeep), List.map_cons]
      exact .one (bytesMatch_filled name) ih

theorem length_shortest_le {pattern : List Name} {path : Path} (h : PathMatch pattern path) :
    (shortest pattern).length ≤ path.length := by
  have hcount : (pattern.map part).countP Piece.isOne = (shortest pattern).length := by
    rw [List.countP_map, shortest, List.length_map, ← List.countP_eq_length_filter]
    refine List.countP_congr fun name _ => ?_
    rw [Function.comp_apply, part]
    split
    · next hdeep => simp [hdeep, Piece.isOne]
    · next hdeep => simp [hdeep, Piece.isOne]
  rw [← hcount]
  exact h.countP_le

theorem isName_shortest {pattern : List Name} (h : ∀ name ∈ pattern, IsName name) :
    ∀ name ∈ shortest pattern, IsName name := by
  intro name hname
  obtain ⟨segment, hsegment, rfl⟩ := List.mem_map.mp hname
  exact isName_filled (h segment (List.mem_of_mem_filter hsegment))

/-! ## The scope of a pattern -/

section
variable {fs : FileSystem} {pattern : List Char}

/-- The paths in scope are those below `dir` by names that the rest of the pattern
matches. -/
def ScopeExact (fs : FileSystem) (pattern : List Char) (dir : Path) : Prop :=
  ∀ path, (∀ name ∈ path, IsName name) →
    (globMatches fs pattern path = true ↔
      ∃ rest, path = dir ++ rest ∧ PathMatch (globRest pattern) rest)

/-- The resolved start of a pattern that resolves: a link or not, in a real directory. -/
theorem start_cases (hvalid : validPathGlob pattern = true) {dir : Path}
    (hdir : fs.canonicalize (literalStart pattern) = .ok dir) :
    literalStart pattern = [] ∧ dir = [] ∨
      ∃ start name real entries tree, literalStart pattern = start ++ [name] ∧
        Real fs.root real ∧ Clean name ∧ hasMeta name = false ∧
        fs.root.descend real = some (.dir entries) ∧ entries.lookup name = some tree ∧
        canonicalOwn fs (literalStart pattern) = real ++ [name] ∧
        fs.symlinkMetadata (literalStart pattern) = .ok tree ∧
        (tree.isLink = false → dir = real ++ [name]) := by
  rcases List.eq_nil_or_concat (literalStart pattern) with hnil | ⟨start, name, hstart⟩
  · rw [hnil] at hdir
    cases hdir
    exact .inl ⟨hnil, rfl⟩
  · rw [List.concat_eq_append] at hstart
    right
    have hmem : name ∈ literalStart pattern := by
      rw [hstart]
      exact List.mem_append_right _ List.mem_cons_self
    have hclean : Clean name :=
      clean_segments hvalid name ((List.takeWhile_prefix _).subset hmem)
    have hmeta : hasMeta name = false := by
      have hplain := List.mem_takeWhile_imp hmem
      rwa [Bool.not_eq_true'] at hplain
    rw [hstart] at hdir
    obtain ⟨real, entries, tree, hreal, hentries, htree, -⟩ := walk_parent hclean.1.1 hdir
    have hlocate := walk_into hreal hclean.1.1 hentries htree
    refine ⟨start, name, real, entries, tree, hstart, real_of_walk .root hreal, hclean, hmeta,
      hentries, htree, ?_, ?_, ?_⟩
    · have hreverse : (start ++ [name]).reverse = name :: start.reverse := by
        rw [List.reverse_append, List.reverse_singleton, List.singleton_append]
      rw [hstart, canonicalOwn_eq hreverse, existingPrefix_of_canonical]
      rw [List.reverse_reverse]
      exact hreal
    · have hfound : fs.root.descend (real ++ [name]) = some tree := by
        rw [Tree.descend_concat, hentries]
        exact htree
      have hplace : fs.locate (start ++ [name]) = .ok (real ++ [name]) := hlocate
      rw [hstart, FileSystem.symlinkMetadata, hplace]
      simp [hfound, bind, Except.bind]
    · intro hlink
      have hsame := walk_concat hreal hclean.1.1 hentries htree hlink
      rw [FileSystem.canonicalize] at hdir
      rw [hsame] at hdir
      exact (Except.ok.inj hdir).symm

theorem isName_of_real {real : Path} (h : Real fs.root real) : ∀ name ∈ real, IsName name := by
  obtain ⟨tree, htree, -⟩ := h.descend rfl
  exact Tree.names_of_descend fs.named htree

theorem globMatches_meta (hvalid : validPathGlob pattern = true) (hmeta : hasMeta pattern = true)
    (hown : ∀ name ∈ canonicalOwn fs (literalStart pattern), IsName name) {path : Path}
    (hpath : ∀ name ∈ path, IsName name) :
    globMatches fs pattern path = true ↔
      PathMatch (canonicalOwn fs (literalStart pattern) ++ globRest pattern) path := by
  rw [globMatches, hmeta, segments_canonicalPattern hvalid hown, segments_displayPath hpath]
  exact segmentsMatch_bytes

theorem literalStart_of_literal (hmeta : hasMeta pattern = false) :
    literalStart pattern = segments pattern := by
  refine List.takeWhile_eq_self_iff.mpr fun name hname => ?_
  rw [segments_eq, List.mem_filter] at hname
  rw [Bool.not_eq_true', hasMeta, List.any_eq_false]
  intro c hc
  exact List.any_eq_false.mp hmeta c (mem_of_mem_split hname.1 hc).2

theorem globMatches_literal (hvalid : validPathGlob pattern = true) (hmeta : hasMeta pattern = false)
    (hown : ∀ name ∈ canonicalOwn fs (literalStart pattern), IsName name) {path : Path}
    (hpath : ∀ name ∈ path, IsName name) :
    globMatches fs pattern path = true ↔ path = canonicalOwn fs (literalStart pattern) := by
  obtain ⟨hscreen, hclean⟩ := clean_of_valid hvalid
  rw [globMatches, hmeta, canonicalLiteral_eq hscreen hclean, ← literalStart_of_literal hmeta]
  rw [Bool.not_false, if_pos rfl, decide_eq_true_iff, Option.some_inj, displayPath_inj hown hpath]
  exact eq_comm

/-- A path in scope has the directory in front, when every name of it stands for itself. -/
theorem scopeExact_of_start {dir : Path} (hvalid : validPathGlob pattern = true)
    (hown : canonicalOwn fs (literalStart pattern) = dir) (hdir : ∀ name ∈ dir, IsName name)
    (hliteral : hasMeta pattern = true → ∀ name ∈ dir, hasMeta name = false) :
    ScopeExact fs pattern dir := by
  intro path hpath
  rw [← hown] at hdir
  cases hmeta : hasMeta pattern with
  | true =>
    rw [globMatches_meta hvalid hmeta hdir hpath, hown]
    exact pathMatch_literal (hliteral hmeta)
  | false =>
    have hrest : globRest pattern = [] := by
      rw [globRest, literalStart_of_literal hmeta, List.drop_length]
    rw [globMatches_literal hvalid hmeta hdir hpath, hown, hrest]
    constructor
    · rintro rfl
      exact ⟨[], (List.append_nil _).symm, .nil⟩
    · rintro ⟨rest, rfl, hmatch⟩
      rw [PathMatch, List.map_nil, matches_nil_iff] at hmatch
      rw [hmatch, List.append_nil]

/-- The start of a pattern with its shortest rest is in scope, so the directory is in front
of the start. -/
theorem dir_prefix {own dir : Path} {rest : List Name}
    (h : ∃ more, own ++ shortest rest = dir ++ more ∧ PathMatch rest more) :
    ∃ extra, own = dir ++ extra := by
  obtain ⟨more, hcut, hmatch⟩ := h
  have hlen := length_shortest_le hmatch
  rcases List.append_eq_append_iff.mp hcut with ⟨extra, rfl, hshort⟩ | ⟨extra, hown, -⟩
  · have hnil : extra = [] := by
      rw [hshort, List.length_append] at hlen
      exact List.length_eq_zero_iff.mp (by omega)
    exact ⟨[], by rw [hnil, List.append_nil, List.append_nil]⟩
  · exact ⟨extra, hown⟩

theorem shortest_append (pattern rest : List Name) :
    shortest (pattern ++ rest) = shortest pattern ++ shortest rest := by
  rw [shortest, shortest, shortest, List.filter_append, List.map_append]

theorem start_of_scopeExact {real dir : Path} {name : Name} (hvalid : validPathGlob pattern = true)
    (hown : canonicalOwn fs (literalStart pattern) = real ++ [name]) (hname : hasMeta name = false)
    (hownNames : ∀ other ∈ real ++ [name], IsName other) (hdirNames : ∀ name ∈ dir, IsName name)
    (h : ScopeExact fs pattern dir) :
    real ++ [name] = dir ∧ (hasMeta pattern = true → ∀ name ∈ dir, hasMeta name = false) := by
  rw [← hown] at hownNames
  cases hmeta : hasMeta pattern with
  | false =>
    refine ⟨?_, fun hfalse => Bool.noConfusion hfalse⟩
    have hself := (h _ hownNames).mp ((globMatches_literal hvalid hmeta hownNames hownNames).mpr rfl)
    have hrest : globRest pattern = [] := by
      rw [globRest, literalStart_of_literal hmeta, List.drop_length]
    obtain ⟨rest, hsame, hmatch⟩ := hself
    rw [hrest, PathMatch, List.map_nil, matches_nil_iff] at hmatch
    rw [← hown, hsame, hmatch, List.append_nil]
  | true =>
    have hrestNames : ∀ name ∈ globRest pattern, IsName name := by
      intro name hname
      refine (clean_segments hvalid name ?_).1
      rw [← literalStart_append]
      exact List.mem_append_right _ hname
    have hshort := isName_shortest hrestNames
    have hscope : ∀ path, (∀ name ∈ path, IsName name) →
        (PathMatch ((real ++ [name]) ++ globRest pattern) path ↔
          ∃ rest, path = dir ++ rest ∧ PathMatch (globRest pattern) rest) := by
      intro path hpath
      rw [← h path hpath, globMatches_meta hvalid hmeta hownNames hpath, hown]
    rw [hown] at hownNames
    have hnames : ∀ front : Path, (∀ name ∈ front, IsName name) →
        ∀ name ∈ front ++ shortest (globRest pattern), IsName name := by
      intro front hfront name hname
      rcases List.mem_append.mp hname with hname | hname
      · exact hfront name hname
      · exact hshort name hname
    -- the directory is in front of the start
    obtain ⟨extra, hextra⟩ := dir_prefix ((hscope _ (hnames _ hownNames)).mp
      (pathMatch_append (pathMatch_self _) (pathMatch_shortest _)))
    -- a wildcard in a name of the directory lets another name in
    have hliteral : ∀ name ∈ dir, hasMeta name = false := by
      intro wild hwild
      by_contra hmetaName
      rw [Bool.not_eq_false] at hmetaName
      obtain ⟨before, after, rfl⟩ := List.append_of_mem hwild
      have hother : PathMatch ((real ++ [name]) ++ globRest pattern)
          ((before ++ ([filled wild] ++ (after ++ extra))) ++ shortest (globRest pattern)) := by
        refine pathMatch_append ?_ (pathMatch_shortest _)
        rw [hextra, List.append_assoc, ← List.singleton_append, List.append_assoc]
        exact pathMatch_append (pathMatch_self before)
          (pathMatch_append (pathMatch_filled wild) (pathMatch_self _))
      have hotherNames : ∀ name ∈ before ++ ([filled wild] ++ (after ++ extra)), IsName name := by
        intro other hmem
        rw [hextra] at hownNames
        rw [List.mem_append, List.singleton_append, List.mem_cons, List.mem_append] at hmem
        rcases hmem with hmem | hmem | hmem | hmem
        · exact hownNames other (by simp [hmem])
        · rw [hmem]
          exact isName_filled (hdirNames wild hwild)
        · exact hownNames other (by simp [hmem])
        · exact hownNames other (by simp [hmem])
      obtain ⟨rest, hcut, -⟩ := (hscope _ (hnames _ hotherNames)).mp hother
      simp only [List.append_assoc, List.cons_append, List.nil_append] at hcut
      have hsame := (List.cons.inj (List.append_cancel_left hcut)).1
      exact filled_ne hmetaName hsame
    -- a name of the start below the directory makes the shortest path in scope longer
    have hnone : extra = [] := by
      rcases List.eq_nil_or_concat extra with hnil | ⟨front, last, hlast⟩
      · exact hnil
      · rw [List.concat_eq_append] at hlast
        have hsame : last = name := by
          rw [hlast, ← List.append_assoc] at hextra
          exact (List.cons.inj (List.append_inj' hextra rfl).2).1.symm
        have hin := (hscope _ (hnames _ hdirNames)).mpr ⟨_, rfl, pathMatch_shortest _⟩
        rw [hextra, List.append_assoc, pathMatch_literal hliteral] at hin
        obtain ⟨more, hmore, hmatch⟩ := hin
        obtain rfl := List.append_cancel_left hmore
        have hlen := length_shortest_le hmatch
        have hdeep : name ≠ ['*', '*'] := by
          rintro rfl
          cases hname
        rw [hlast, hsame, shortest_append, shortest_append, List.length_append, List.length_append] at hlen
        have hone : (shortest [name]).length = 1 := by
          rw [shortest, List.filter_cons_of_pos (by simpa using hdeep)]
          rfl
        omega
    rw [hnone, List.append_nil] at hextra
    exact ⟨hextra, fun _ => hliteral⟩

end

/-- A granted pattern covers just what it says below its directory exactly when the last
component of its literal start is no link, and no name of the directory reads as a pattern. -/
theorem scope_exact_iff (fs : FileSystem) (pattern : List Char) (dir : Path)
    (hvalid : validPathGlob pattern = true)
    (hdir : fs.canonicalize (literalStart pattern) = .ok dir) :
    ScopeExact fs pattern dir ↔ isSymlink fs (literalStart pattern) = false ∧
      (hasMeta pattern = true → ∀ name ∈ dir, hasMeta name = false) := by
  have hreal : Real fs.root dir := real_of_walk .root hdir
  have hdirNames := isName_of_real hreal
  rcases start_cases hvalid hdir with ⟨hnil, rfl⟩ |
    ⟨start, name, real, entries, tree, hstart, hparent, hclean, hname, hentries, htree, hown,
      hmetadata, hfollow⟩
  · have hnone : ∀ name ∈ ([] : Path), hasMeta name = false :=
      fun _ hname => absurd hname List.not_mem_nil
    refine iff_of_true (scopeExact_of_start hvalid ?_ hdirNames fun _ => hnone) ⟨?_, fun _ => hnone⟩
    · rw [hnil]
      rfl
    · rw [hnil]
      rfl
  · have hownNames : ∀ other ∈ real ++ [name], IsName other := by
      intro other hother
      rcases List.mem_append.mp hother with hother | hother
      · exact isName_of_real hparent other hother
      · rw [List.mem_singleton.mp hother]
        exact hclean.1
    have hlink : isSymlink fs (literalStart pattern) = tree.isLink := by
      rw [isSymlink, hmetadata]
    have hsame : tree.isLink = false ↔ real ++ [name] = dir := by
      constructor
      · exact fun htree => (hfollow htree).symm
      · rintro rfl
        obtain ⟨found, hfound, hnolink⟩ := hreal.descend rfl
        have hat : fs.root.descend (real ++ [name]) = some tree := by
          rw [Tree.descend_concat, hentries]
          exact htree
        rw [hat] at hfound
        cases hfound
        exact hnolink
    rw [hlink, hsame]
    constructor
    · exact start_of_scopeExact hvalid hown hname hownNames hdirNames
    · rintro ⟨hstartIs, hliteral⟩
      exact scopeExact_of_start hvalid (hown.trans hstartIs) hdirNames hliteral

/-- Releases beside each other, and a link to the current one. -/
def releaseTree : FileSystem where
  entries := [("srv".toList, .dir [("v1".toList, .dir [("app".toList, .file (some [1]))]),
    ("current".toList, .link "v1".toList)])]
  named := by decide

theorem scope_exact_iff_release :
    ScopeExact releaseTree "/srv/v1/*".toList ["srv".toList, "v1".toList] :=
  (scope_exact_iff releaseTree "/srv/v1/*".toList ["srv".toList, "v1".toList] (by decide +kernel)
    (by decide +kernel)).mpr ⟨by decide +kernel, by decide +kernel⟩

/-- A grant below the link does not cover the release it leads to. -/
theorem linked_start_not_followed :
    releaseTree.canonicalize (literalStart "/srv/current/*".toList) =
        .ok ["srv".toList, "v1".toList] ∧
      ¬ ScopeExact releaseTree "/srv/current/*".toList ["srv".toList, "v1".toList] := by
  refine ⟨by decide +kernel, fun h => ?_⟩
  have hnames : ∀ name ∈ ["srv".toList, "v1".toList, "app".toList], IsName name := by
    unfold IsName
    decide +kernel
  have hrest : globRest "/srv/current/*".toList = [['*']] := by decide +kernel
  have hin := (h _ hnames).mpr ⟨["app".toList], rfl, by
    rw [hrest]
    exact .one matches_run_all .nil⟩
  have hout : globMatches releaseTree "/srv/current/*".toList
      ["srv".toList, "v1".toList, "app".toList] = false := by decide +kernel
  rw [hin] at hout
  cases hout

end Novbot.Runtime
