import Mathlib.Data.List.Forall2
import Mathlib.Data.List.TakeWhile
import Novbot.Tags.Selector

/-!
# The grammar of selectors

`Denotes` says which text denotes a requirement, and `Lists` which text lists several.  The
parser reads only what the grammar lists (`lists_of_requirements`), and all of it that keeps
the limits (`requirements_of_lists`).  White space around requirements is ASCII, while a
selector that is blank or `*` may have any around it.

The equalities that `reject_conflicting_equality` drops repeat others
(`mem_of_rejectConflictingEquality`).
-/

namespace Novbot.Tags

open Text

/-! ## Grammar -/

def Blank (cs : List Char) : Prop := ∀ c ∈ cs, isAsciiWhitespace c = true

/-- What stands between the parentheses of a set. -/
inductive DenotesSet : List Char → List String → Prop where
  | last {a b : List Char} {value : String} :
    Blank a → valueOk value = true → Blank b → DenotesSet (a ++ (value.toList ++ b)) [value]
  | more {a b rest : List Char} {value : String} {values : List String} :
    Blank a → valueOk value = true → Blank b → DenotesSet rest values →
    DenotesSet (a ++ (value.toList ++ (b ++ ',' :: rest))) (value :: values)

inductive Denotes : List Char → Requirement → Prop where
  | notExists {a : List Char} {key : String} :
    Blank a → keyOk key = true → Denotes ('!' :: (a ++ key.toList)) (.notExists key)
  | keyExists {key : String} : keyOk key = true → Denotes key.toList (.keyExists key)
  | notEq {a b : List Char} {key value : String} :
    keyOk key = true → Blank a → Blank b → valueOk value = true →
    Denotes (key.toList ++ (a ++ '!' :: '=' :: (b ++ value.toList))) (.notEq key value)
  | eq {a b : List Char} {key value : String} :
    keyOk key = true → Blank a → Blank b → valueOk value = true →
    Denotes (key.toList ++ (a ++ '=' :: (b ++ value.toList))) (.eq key value)
  | notIn {a b set : List Char} {key : String} {values : List String} :
    keyOk key = true → a ≠ [] → Blank a → Blank b → DenotesSet set values →
    Denotes (key.toList ++ (a ++ ("notin".toList ++ (b ++ '(' :: (set ++ [')'])))))
      (.notIn key values)
  | isIn {a b set : List Char} {key : String} {values : List String} :
    keyOk key = true → a ≠ [] → Blank a → Blank b → DenotesSet set values →
    Denotes (key.toList ++ (a ++ ("in".toList ++ (b ++ '(' :: (set ++ [')'])))))
      (.isIn key values)

/-- A requirement with the white space around it. -/
inductive Segment : List Char → Requirement → Prop where
  | mk {a text b : List Char} {req : Requirement} :
    Blank a → Denotes text req → Blank b → Segment (a ++ (text ++ b)) req

inductive Lists : List Char → List Requirement → Prop where
  | last {cs : List Char} {req : Requirement} : Segment cs req → Lists cs [req]
  | more {cs rest : List Char} {req : Requirement} {reqs : List Requirement} :
    Segment cs req → Lists rest reqs → Lists (cs ++ ',' :: rest) (req :: reqs)

/-- A set keeps the limit. -/
def Requirement.Fits : Requirement → Prop
  | .isIn _ values => values.length ≤ maxSetValues
  | .notIn _ values => values.length ≤ maxSetValues
  | _ => True

instance (req : Requirement) : Decidable req.Fits := by
  cases req <;> simp only [Requirement.Fits] <;> infer_instance

theorem Blank.append {a b : List Char} (ha : Blank a) (hb : Blank b) : Blank (a ++ b) :=
  fun c hc => (List.mem_append.mp hc).elim (ha c) (hb c)

/-- White space may stand before a list. -/
theorem Lists.blank {cs a : List Char} {reqs : List Requirement} (h : Lists cs reqs)
    (ha : Blank a) : Lists (a ++ cs) reqs := by
  have hsegment : ∀ {cs req}, Segment cs req → Segment (a ++ cs) req := by
    intro cs req hsegment
    obtain ⟨hb, htext, hc⟩ := hsegment
    rw [← List.append_assoc]
    exact .mk (ha.append hb) htext hc
  cases h with
  | last h => exact .last (hsegment h)
  | more h hrest =>
    rw [← List.append_assoc]
    exact .more (hsegment h) hrest

/-! ## Keys and values -/

theorem not_ws_of_tagChar {c : Char} (h : isTagChar c = true) : isAsciiWhitespace c = false := by
  by_contra hws
  rw [Bool.not_eq_false, isAsciiWhitespace] at hws
  simp only [Bool.or_eq_true, beq_iff_eq] at hws
  rcases hws with (((rfl | rfl) | rfl) | rfl) | rfl <;> exact absurd h (by decide)

section
variable {key value : String}

/-- A key is a run of tag characters. -/
theorem keyOk_run (h : keyOk key = true) :
    key.toList ≠ [] ∧ ∀ c ∈ key.toList, isTagChar c = true := by
  rw [keyOk] at h
  cases hkey : key.toList with
  | nil =>
    rw [hkey] at h
    cases h
  | cons c rest =>
    rw [hkey] at h
    simp only [Bool.and_eq_true, List.all_eq_true] at h
    refine ⟨List.cons_ne_nil c rest, List.forall_mem_cons.mpr ⟨?_, h.2⟩⟩
    rw [isTagChar, h.1.1]
    rfl

theorem valueOk_run (h : valueOk value = true) :
    value.toList ≠ [] ∧ ∀ c ∈ value.toList, isTagChar c = true := by
  simp only [valueOk, Bool.and_eq_true, decide_eq_true_eq, List.all_eq_true] at h
  exact ⟨List.ne_nil_of_length_pos h.1.1, h.2⟩

end

/-! ## What the parser reads -/

namespace Parser

variable {p p' : Parser} {raw : String} {text : List Char}

theorem rest_skipWs (p : Parser) : ∃ a, Blank a ∧ p.rest = a ++ p.skipWs.rest :=
  ⟨_, fun _ => List.mem_takeWhile_imp, (List.takeWhile_append_dropWhile).symm⟩

theorem skipWs_stops (p : Parser) : Stops isAsciiWhitespace p.skipWs.rest := stops_dropWhile p.rest

theorem rest_of_eat (h : p.eat text = some p') : p.rest = text ++ p'.rest := by
  rw [eat] at h
  split at h
  · next hprefix =>
    cases h
    exact (List.prefix_iff_eq_append.mp (List.isPrefixOf_iff_prefix.mp hprefix)).symm
  · cases h

theorem rest_of_eatWord (h : p.eatWord text = some p') : p.rest = text ++ p'.rest :=
  rest_of_eat (Option.filter_eq_some_iff.mp h).1

theorem rest_of_token (h : p.token = .ok (raw, p')) :
    p.rest = raw.toList ++ p'.rest ∧ Stops isTagChar p'.rest := by
  simp only [token, Check.ite_throw_eq_ok, Check.pure_eq_ok, Prod.mk.injEq] at h
  obtain ⟨-, rfl, rfl⟩ := h
  rw [String.toList_ofList]
  exact ⟨(List.takeWhile_append_dropWhile).symm, stops_dropWhile p.rest⟩

theorem rest_of_key (h : p.key = .ok (raw, p')) :
    keyOk raw = true ∧ p.rest = raw.toList ++ p'.rest ∧ Stops isTagChar p'.rest := by
  simp only [key, Check.bind_eq_ok, Check.throw_bind, Check.ite_throw_eq_ok, Check.pure_eq_ok] at h
  obtain ⟨⟨raw, next⟩, htoken, hok, heq⟩ := h
  cases heq
  exact ⟨by simpa using hok, rest_of_token htoken⟩

theorem rest_of_value (h : p.value = .ok (raw, p')) :
    valueOk raw = true ∧ p.rest = raw.toList ++ p'.rest := by
  simp only [value, Check.bind_eq_ok, Check.throw_bind, Check.ite_throw_eq_ok,
    Check.pure_eq_ok] at h
  obtain ⟨⟨raw, next⟩, htoken, hok, heq⟩ := h
  cases heq
  exact ⟨by simpa using hok, (rest_of_token htoken).1⟩

theorem set_of_values {room : Nat} {set : List String} (h : p.values room = .ok (set, p')) :
    ∃ text, DenotesSet text set ∧ p.rest = text ++ ')' :: p'.rest ∧ set.length ≤ room := by
  induction room generalizing p set with
  | zero => cases h
  | succ room ih =>
    simp only [values, Check.bind_eq_ok] at h
    obtain ⟨⟨value, next⟩, hvalue, h⟩ := h
    obtain ⟨a, ha, hpre⟩ := p.rest_skipWs
    obtain ⟨hok, hrest⟩ := rest_of_value hvalue
    obtain ⟨b, hb, hnext⟩ := next.rest_skipWs
    dsimp only at h
    cases hcomma : next.skipWs.eat [','] with
    | some more =>
      simp only [hcomma, Check.bind_eq_ok, Check.pure_eq_ok] at h
      obtain ⟨⟨values, last⟩, hvalues, heq⟩ := h
      cases heq
      obtain ⟨text, htext, hmore, hlength⟩ := ih hvalues
      refine ⟨_, .more ha hok hb htext, ?_, by simpa using hlength⟩
      rw [hpre, hrest, hnext, rest_of_eat hcomma, hmore]
      simp
    | none =>
      rw [hcomma] at h
      dsimp only at h
      cases hclose : next.skipWs.eat [')'] with
      | none =>
        rw [hclose] at h
        cases h
      | some last =>
        rw [hclose] at h
        cases h
        refine ⟨_, .last ha hok hb, ?_, by simp⟩
        rw [hpre, hrest, hnext, rest_of_eat hclose]
        simp

theorem set_of_valueSet {set : List String} (h : p.valueSet = .ok (set, p')) :
    ∃ b text, Blank b ∧ DenotesSet text set ∧ p.rest = b ++ '(' :: (text ++ ')' :: p'.rest) ∧
      set.length ≤ maxSetValues := by
  obtain ⟨b, hb, hpre⟩ := p.rest_skipWs
  rw [valueSet] at h
  dsimp only at h
  cases hopen : p.skipWs.eat ['('] with
  | none =>
    rw [hopen] at h
    cases h
  | some next =>
    simp only [hopen, Check.bind_eq_ok, Check.throw_bind, Check.ite_throw_eq_ok,
      Check.pure_eq_ok] at h
    obtain ⟨⟨values, last⟩, hvalues, -, heq⟩ := h
    cases heq
    obtain ⟨text, htext, hrest, hlength⟩ := set_of_values hvalues
    refine ⟨b, text, hb, htext, ?_, hlength⟩
    rw [hpre, rest_of_eat hopen, hrest]
    rfl

/-- After a key a word needs white space before it. -/
theorem blank_before_word {a rest : List Char} {c : Char} (hc : isTagChar c = true)
    (hstops : Stops isTagChar (a ++ c :: rest)) : a ≠ [] := by
  rintro rfl
  exact absurd (hstops c rfl) (by simp [hc])

theorem denoted_of_requirement {req : Requirement} (h : p.requirement = .ok (req, p')) :
    ∃ a text b, Blank a ∧ Denotes text req ∧ Blank b ∧
      p.rest = a ++ (text ++ (b ++ p'.rest)) ∧ req.Fits := by
  obtain ⟨a, ha, hpre⟩ := p.rest_skipWs
  have hnone : Blank [] := fun _ hc => by cases hc
  simp only [requirement, Check.throw_bind, Check.ite_throw_eq_ok] at h
  obtain ⟨-, h⟩ := h
  cases hbang : p.skipWs.eat ['!'] with
  | some start =>
    simp only [hbang, Check.bind_eq_ok, Check.pure_eq_ok] at h
    obtain ⟨⟨key, last⟩, hkey, heq⟩ := h
    cases heq
    obtain ⟨b, hb, hstart⟩ := start.rest_skipWs
    obtain ⟨hok, hrest, -⟩ := rest_of_key hkey
    refine ⟨a, _, [], ha, .notExists hb hok, hnone, ?_, trivial⟩
    rw [hpre, rest_of_eat hbang, hstart, hrest]
    simp
  | none =>
    simp only [hbang, Check.bind_eq_ok] at h
    obtain ⟨⟨key, start⟩, hkey, h⟩ := h
    obtain ⟨hok, hrest, hstops⟩ := rest_of_key hkey
    obtain ⟨b, hb, hstart⟩ := start.rest_skipWs
    dsimp only at h
    split at h
    · -- The key alone, whose white space is read.
      cases h
      refine ⟨a, _, b, ha, .keyExists hok, hb, ?_, trivial⟩
      rw [hpre, hrest, hstart]
    · rw [hstart] at hstops
      cases hne : start.skipWs.eat ['!', '='] with
      | some next =>
        simp only [hne, Check.bind_eq_ok, Check.pure_eq_ok] at h
        obtain ⟨⟨value, last⟩, hvalue, heq⟩ := h
        cases heq
        obtain ⟨c, hc, hnext⟩ := next.rest_skipWs
        obtain ⟨hvok, hlast⟩ := rest_of_value hvalue
        refine ⟨a, _, [], ha, .notEq hok hb hc hvok, hnone, ?_, trivial⟩
        rw [hpre, hrest, hstart, rest_of_eat hne, hnext, hlast]
        simp
      | none =>
        rw [hne] at h
        dsimp only at h
        cases heq : start.skipWs.eat ['='] with
        | some next =>
          simp only [heq, Check.bind_eq_ok, Check.pure_eq_ok] at h
          obtain ⟨⟨value, last⟩, hvalue, hresult⟩ := h
          cases hresult
          obtain ⟨c, hc, hnext⟩ := next.rest_skipWs
          obtain ⟨hvok, hlast⟩ := rest_of_value hvalue
          refine ⟨a, _, [], ha, .eq hok hb hc hvok, hnone, ?_, trivial⟩
          rw [hpre, hrest, hstart, rest_of_eat heq, hnext, hlast]
          simp
        | none =>
          rw [heq] at h
          dsimp only at h
          cases hnotin : start.skipWs.eatWord "notin".toList with
          | some next =>
            simp only [hnotin, Check.bind_eq_ok, Check.pure_eq_ok] at h
            obtain ⟨⟨set, last⟩, hset, hresult⟩ := h
            cases hresult
            obtain ⟨c, text, hc, htext, hnext, hfits⟩ := set_of_valueSet hset
            have hword := rest_of_eatWord hnotin
            rw [hword] at hstops
            refine ⟨a, _, [], ha, .notIn hok (blank_before_word (by decide) hstops) hb hc htext,
              hnone, ?_, hfits⟩
            rw [hpre, hrest, hstart, hword, hnext]
            simp
          | none =>
            rw [hnotin] at h
            dsimp only at h
            cases hin : start.skipWs.eatWord "in".toList with
            | some next =>
              simp only [hin, Check.bind_eq_ok, Check.pure_eq_ok] at h
              obtain ⟨⟨set, last⟩, hset, hresult⟩ := h
              cases hresult
              obtain ⟨c, text, hc, htext, hnext, hfits⟩ := set_of_valueSet hset
              have hword := rest_of_eatWord hin
              rw [hword] at hstops
              refine ⟨a, _, [], ha, .isIn hok (blank_before_word (by decide) hstops) hb hc htext,
                hnone, ?_, hfits⟩
              rw [hpre, hrest, hstart, hword, hnext]
              simp
            | none =>
              rw [hin] at h
              cases h

/-- The parser reads only what the grammar lists. -/
theorem lists_of_requirements {room : Nat} {reqs : List (Nat × Requirement)}
    (h : p.requirements room = .ok reqs) :
    Lists p.rest (reqs.map (·.2)) ∧ reqs.length ≤ room ∧ ∀ req ∈ reqs, req.2.Fits := by
  induction room generalizing p reqs with
  | zero => cases h
  | succ room ih =>
    simp only [requirements, Check.bind_eq_ok] at h
    obtain ⟨⟨req, after⟩, hreq, h⟩ := h
    obtain ⟨a, text, b, ha, htext, hb, hpre, hfits⟩ := denoted_of_requirement hreq
    obtain ⟨c, hc, hafter⟩ := after.rest_skipWs
    have hsegment : Segment (a ++ (text ++ (b ++ c))) req := .mk ha htext (hb.append hc)
    dsimp only at h
    split at h
    · next hend =>
      cases h
      refine ⟨?_, by simp, by simpa using hfits⟩
      rw [hpre, hafter, hend, List.append_nil]
      exact .last hsegment
    · cases hcomma : after.skipWs.eat [','] with
      | none =>
        rw [hcomma] at h
        cases h
      | some next =>
        simp only [hcomma, Check.throw_bind, Check.ite_throw_eq_ok, Check.bind_eq_ok,
          Check.pure_eq_ok] at h
        obtain ⟨-, rest, hrest, rfl⟩ := h
        obtain ⟨hlists, hlength, hall⟩ := ih hrest
        obtain ⟨d, hd, hnext⟩ := next.rest_skipWs
        refine ⟨?_, by simpa using hlength, List.forall_mem_cons.mpr ⟨hfits, hall⟩⟩
        have htext : p.rest = (a ++ (text ++ (b ++ c))) ++ ',' :: (d ++ next.skipWs.rest) := by
          rw [hpre, hafter, rest_of_eat hcomma, hnext]
          simp
        rw [htext]
        exact .more hsegment (hlists.blank hd)

end Parser

/-! ## The ends of a list -/

/-- White space that is trimmed, wherever requirements stand. -/
structure Trims (p : Char → Bool) : Prop where
  blank : ∀ c, isAsciiWhitespace c = true → p c = true
  tagChar : ∀ c, isTagChar c = true → p c = false
  bang : p '!' = false
  close : p ')' = false

theorem trims_isAsciiWhitespace : Trims isAsciiWhitespace :=
  ⟨fun _ h => h, fun _ => not_ws_of_tagChar, by decide, by decide⟩

section
variable {p : Char → Bool} {cs text a b rest : List Char} {req : Requirement}
  {reqs : List Requirement}

theorem Trims.run (hp : Trims p) (h : cs ≠ [] ∧ ∀ c ∈ cs, isTagChar c = true) :
    Stops p (cs ++ rest) := by
  obtain ⟨c, tail, rfl⟩ := List.exists_cons_of_ne_nil h.1
  exact .cons (hp.tagChar c (h.2 c List.mem_cons_self))

theorem Denotes.starts (h : Denotes text req) (hp : Trims p) : Stops p (text ++ rest) := by
  cases h with
  | notExists ha hkey => exact .cons hp.bang
  | keyExists hkey => exact hp.run (keyOk_run hkey)
  | notEq hkey | eq hkey | notIn hkey | isIn hkey =>
    rw [List.append_assoc]
    exact hp.run (keyOk_run hkey)

theorem Denotes.ne_nil (h : Denotes text req) : text ≠ [] := by
  cases h with
  | notExists ha hkey => exact List.cons_ne_nil _ _
  | keyExists hkey => exact (keyOk_run hkey).1
  | notEq hkey | eq hkey | notIn hkey | isIn hkey =>
    exact List.append_ne_nil_of_left_ne_nil (keyOk_run hkey).1 _

theorem getLast_run (h : cs ≠ [] ∧ ∀ c ∈ cs, isTagChar c = true) {c : Char}
    (hc : (text ++ cs).getLast? = some c) : isTagChar c = true := by
  rw [List.getLast?_append_of_ne_nil _ h.1] at hc
  exact h.2 c (List.mem_of_getLast? hc)

theorem Denotes.ends (h : Denotes text req) (hp : Trims p) :
    ∀ c, text.getLast? = some c → p c = false := by
  intro c hc
  cases h with
  | notExists ha hkey =>
    rw [← List.cons_append] at hc
    exact hp.tagChar c (getLast_run (keyOk_run hkey) hc)
  | keyExists hkey => exact hp.tagChar c ((keyOk_run hkey).2 c (List.mem_of_getLast? hc))
  | notEq hkey ha hb hvalue | eq hkey ha hb hvalue =>
    simp only [← List.cons_append, ← List.append_assoc] at hc
    exact hp.tagChar c (getLast_run (valueOk_run hvalue) hc)
  | notIn hkey _ ha hb hset | isIn hkey _ ha hb hset =>
    simp only [← List.cons_append, ← List.append_assoc, List.getLast?_append,
      List.getLast?_singleton, Option.some_or] at hc
    cases hc
    exact hp.close

theorem Blank.trimmed (ha : Blank a) (hp : Trims p) : ∀ c ∈ a, p c = true :=
  fun c hc => hp.blank c (ha c hc)

theorem trimEndMatches_run (hb : ∀ c ∈ b, p c = true) (cs : List Char) :
    trimEndMatches p (cs ++ b) = trimEndMatches p cs := by
  rw [trimEndMatches, List.reverse_append, List.dropWhile_append_of_pos, trimEndMatches]
  exact fun c hc => hb c (List.mem_reverse.mp hc)

theorem trimEndMatches_append (h : trimEndMatches p b ≠ []) (cs : List Char) :
    trimEndMatches p (cs ++ b) = cs ++ trimEndMatches p b := by
  rw [trimEndMatches, ne_eq, List.reverse_eq_nil_iff] at h
  rw [trimEndMatches, List.reverse_append, List.dropWhile_append, if_neg (by simpa using h),
    List.reverse_append, List.reverse_reverse, trimEndMatches]

theorem length_trimmed_le (p : Char → Bool) (cs : List Char) :
    (trimEndMatches p (cs.dropWhile p)).length ≤ cs.length := by
  have hdrop := List.length_dropWhile_le (p := p) (l := cs)
  have hend := List.length_dropWhile_le (p := p) (l := (cs.dropWhile p).reverse)
  rw [trimEndMatches, List.length_reverse]
  rw [List.length_reverse] at hend
  exact hend.trans hdrop

/-- A segment is trimmed to what denotes its requirement. -/
theorem trimEndMatches_segment (hp : Trims p) (htext : Denotes text req) (hb : Blank b) :
    trimEndMatches p (text ++ b) = text := by
  rw [trimEndMatches_run (hb.trimmed hp), trimEndMatches_of_last (htext.ends hp)]

theorem Lists.ne_nil (h : Lists cs reqs) : cs ≠ [] := by
  cases h with
  | last h =>
    obtain ⟨-, htext, -⟩ := h
    simp [htext.ne_nil]
  | more h hrest => simp

theorem Lists.trimStart (h : Lists cs reqs) (hp : Trims p) : Lists (cs.dropWhile p) reqs := by
  cases h with
  | last h =>
    obtain ⟨ha, htext, hb⟩ := h
    rw [dropWhile_run (ha.trimmed hp) (htext.starts hp)]
    exact .last (.mk (a := []) (fun _ hc => by cases hc) htext hb)
  | more h hrest =>
    obtain ⟨ha, htext, hb⟩ := h
    rw [List.append_assoc, List.append_assoc, dropWhile_run (ha.trimmed hp) (htext.starts hp),
      ← List.append_assoc]
    exact .more (.mk (a := []) (fun _ hc => by cases hc) htext hb) hrest

theorem Lists.trimEnd (h : Lists cs reqs) (hp : Trims p) :
    Lists (trimEndMatches p cs) reqs ∧ trimEndMatches p cs ≠ [] := by
  induction h with
  | last h =>
    obtain ⟨ha, htext, hb⟩ := h
    have htrim := trimEndMatches_segment hp htext hb
    rw [trimEndMatches_append (by rw [htrim]; exact htext.ne_nil), htrim]
    have hsegment := Segment.mk (b := []) ha htext fun _ hc => by cases hc
    rw [List.append_nil] at hsegment
    exact ⟨.last hsegment, List.append_ne_nil_of_right_ne_nil _ htext.ne_nil⟩
  | more h hrest ih =>
    rw [List.append_cons, trimEndMatches_append ih.2, ← List.append_cons]
    exact ⟨.more h ih.1, by simp⟩

end

/-! ## What the parser accepts -/

/-- The parser gives a result if and only if it keeps the limits. -/
def Gives {α : Type} (fits : Prop) (after : α → Parser → Prop)
    (outcome : Except SelectorError (α × Parser)) : Prop :=
  (fits → ∃ a p', outcome = .ok (a, p') ∧ after a p') ∧ (¬ fits → ∃ e, outcome = .error e)

namespace Parser

variable {p : Parser} {key value : String} {a b cs text rest : List Char} {values : List String}
  {req : Requirement} {reqs : List Requirement}

theorem skipWs_blank (ha : Blank a) (hrest : Stops isAsciiWhitespace rest)
    (h : p.rest = a ++ rest) : p.skipWs.rest = rest := by
  show p.rest.dropWhile isAsciiWhitespace = rest
  rw [h, dropWhile_run ha hrest]

theorem eat_next (text : List Char) (h : p.rest = text ++ rest) :
    ∃ p', p.eat text = some p' ∧ p'.rest = rest := by
  refine ⟨_, if_pos (List.isPrefixOf_iff_prefix.mpr (h ▸ List.prefix_append text rest)), ?_⟩
  show p.rest.drop text.length = rest
  rw [h, List.drop_left]

theorem eat_other {c : Char} (h : p.rest.head? ≠ some c) : p.eat (c :: cs) = none := by
  refine if_neg fun hprefix => h ?_
  obtain ⟨tail, htail⟩ := List.isPrefixOf_iff_prefix.mp hprefix
  rw [← htail]
  rfl

theorem token_next (hrun : cs ≠ [] ∧ ∀ c ∈ cs, isTagChar c = true) (hrest : Stops isTagChar rest)
    (h : p.rest = cs ++ rest) : ∃ p', p.token = .ok (String.ofList cs, p') ∧ p'.rest = rest := by
  refine ⟨p.advance cs rest, ?_, rfl⟩
  simp only [token, h, takeWhile_run hrun.2 hrest, dropWhile_run hrun.2 hrest, if_neg hrun.1]
  rfl

theorem key_next (hkey : keyOk key = true) (hrest : Stops isTagChar rest)
    (h : p.rest = key.toList ++ rest) : ∃ p', p.key = .ok (key, p') ∧ p'.rest = rest := by
  obtain ⟨p', htoken, hp'⟩ := token_next (keyOk_run hkey) hrest h
  rw [String.ofList_toList] at htoken
  exact ⟨p', by simp [Parser.key, htoken, hkey], hp'⟩

theorem value_next (hvalue : valueOk value = true) (hrest : Stops isTagChar rest)
    (h : p.rest = value.toList ++ rest) : ∃ p', p.value = .ok (value, p') ∧ p'.rest = rest := by
  obtain ⟨p', htoken, hp'⟩ := token_next (valueOk_run hvalue) hrest h
  rw [String.ofList_toList] at htoken
  exact ⟨p', by simp [Parser.value, htoken, hvalue], hp'⟩

theorem stops_spaced (hne : b ≠ []) (hb : Blank b) : Stops isTagChar (b ++ rest) := by
  obtain ⟨c, b, rfl⟩ := List.exists_cons_of_ne_nil hne
  refine .cons ?_
  by_contra htag
  rw [Bool.not_eq_false] at htag
  exact absurd (hb c List.mem_cons_self) (by simp [not_ws_of_tagChar htag])

theorem stops_blank (hb : Blank b) (hrest : Stops isTagChar rest) :
    Stops isTagChar (b ++ rest) := by
  cases b with
  | nil => exact hrest
  | cons c b => exact stops_spaced (List.cons_ne_nil c b) hb

theorem gives_values {room : Nat} (hset : DenotesSet text values)
    (h : p.rest = text ++ ')' :: rest) :
    Gives (values.length ≤ room) (fun set p' => set = values ∧ p'.rest = rest)
      (p.values room) := by
  induction room generalizing p text values with
  | zero => exact ⟨fun hlength => by cases hset <;> simp at hlength, fun _ => ⟨_, rfl⟩⟩
  | succ room ih =>
    have hws := trims_isAsciiWhitespace
    cases hset with
    | @last a b value ha hvalue hb =>
      simp only [List.append_assoc] at h
      obtain ⟨next, hnext, hrest⟩ := value_next hvalue
        (stops_blank hb (.cons (by decide))) (skipWs_blank ha (hws.run (valueOk_run hvalue)) h)
      have hafter := skipWs_blank hb (.cons (by decide)) hrest
      have hcomma : next.skipWs.eat [','] = none := eat_other (by simp [hafter])
      obtain ⟨last, hlast, hend⟩ := @eat_next next.skipWs _ [')'] hafter
      refine ⟨fun _ => ⟨[value], last, ?_, rfl, hend⟩, fun hlong => absurd hlong (by simp)⟩
      simp [Parser.values, hnext, hcomma, hlast]
    | @more a b tail value values ha hvalue hb htail =>
      simp only [List.append_assoc, List.cons_append] at h
      obtain ⟨next, hnext, hrest⟩ := value_next hvalue
        (stops_blank hb (.cons (by decide))) (skipWs_blank ha (hws.run (valueOk_run hvalue)) h)
      have hafter := skipWs_blank hb (.cons (by decide)) hrest
      obtain ⟨more, hmore, hrest⟩ := @eat_next next.skipWs _ [','] hafter
      obtain ⟨hfit, hlong⟩ := ih htail hrest
      constructor
      · intro hlength
        obtain ⟨set, last, hset, rfl, hend⟩ := hfit (Nat.le_of_succ_le_succ hlength)
        refine ⟨value :: set, last, ?_, rfl, hend⟩
        simp [Parser.values, hnext, hmore, hset]
      · intro hlength
        obtain ⟨e, he⟩ := hlong fun hle => hlength (Nat.succ_le_succ hle)
        refine ⟨e, ?_⟩
        simp [Parser.values, Check.bind_eq_error, hnext, hmore, he]

theorem gives_valueSet (hb : Blank b) (hset : DenotesSet text values)
    (h : p.rest = b ++ '(' :: (text ++ ')' :: rest)) :
    Gives (values.length ≤ maxSetValues) (fun set p' => set = values ∧ p'.rest = rest)
      p.valueSet := by
  have hafter := skipWs_blank hb (.cons (by decide)) h
  obtain ⟨next, hnext, hrest⟩ := @eat_next p.skipWs _ ['('] hafter
  obtain ⟨hfit, hlong⟩ := gives_values hset hrest
  constructor
  · intro hlength
    obtain ⟨set, last, hvalues, rfl, hend⟩ := hfit hlength
    have hne : set ≠ [] := by cases hset <;> exact List.cons_ne_nil _ _
    exact ⟨set, last, by simp [valueSet, hnext, hvalues, hne], rfl, hend⟩
  · intro hlength
    obtain ⟨e, he⟩ := hlong hlength
    exact ⟨e, by simp [valueSet, Check.bind_eq_error, hnext, he]⟩

theorem word_next (text : List Char) (hb : Blank b) (h : p.rest = text ++ (b ++ '(' :: rest)) :
    ∃ p', p.eatWord text = some p' ∧ p'.rest = b ++ '(' :: rest := by
  obtain ⟨p', hp', hrest⟩ := eat_next text h
  refine ⟨p', Option.filter_eq_some_iff.mpr ⟨hp', ?_⟩, hrest⟩
  rw [hrest]
  cases b with
  | nil => rfl
  | cons c b =>
    have hc := hb c List.mem_cons_self
    simp only [isAsciiWhitespace, Bool.or_eq_true, beq_iff_eq] at hc
    rcases hc with (((rfl | rfl) | rfl) | rfl) | rfl <;> rfl

/-- What a requirement may be followed by. -/
def Ends (rest : List Char) : Prop := rest = [] ∨ rest.head? = some ','

theorem Ends.stops {q : Char → Bool} (h : Ends rest) (hq : q ',' = false) : Stops q rest := by
  rcases h with rfl | h
  · exact .nil
  · intro c hc
    rw [h] at hc
    cases hc
    exact hq

theorem gives_requirement (htext : Denotes text req) (ha : Blank a) (hb : Blank b)
    (hends : Ends rest) (h : p.rest = a ++ (text ++ (b ++ rest))) :
    Gives req.Fits (fun req' p' => req' = req ∧ p'.skipWs.rest = rest) p.requirement := by
  have hws := trims_isAsciiWhitespace
  have hstart := skipWs_blank ha (htext.starts hws) h
  have hne : p.skipWs.rest ≠ [] := by
    rw [hstart]
    exact List.append_ne_nil_of_left_ne_nil htext.ne_nil _
  have hlast : ∀ {q : Parser}, q.rest = b ++ rest → q.skipWs.rest = rest :=
    skipWs_blank hb (hends.stops (by decide))
  have htag : Stops isTagChar (b ++ rest) := stops_blank hb (hends.stops (by decide))
  have hkeyed : ∀ {key : String} {tail : List Char}, keyOk key = true →
      p.skipWs.rest = key.toList ++ tail → p.skipWs.eat ['!'] = none := by
    intro key tail hkey htail
    refine eat_other fun hbang => ?_
    obtain ⟨hcons, hall⟩ := keyOk_run hkey
    obtain ⟨c, cs, hcs⟩ := List.exists_cons_of_ne_nil hcons
    rw [htail, hcs] at hbang
    cases hbang
    exact absurd (hall '!' (by simp [hcs])) (by decide)
  cases htext with
  | @notExists c key hc hkey =>
    simp only [List.cons_append, List.append_assoc] at hstart
    obtain ⟨next, hnext, hrest⟩ := @eat_next p.skipWs _ ['!'] hstart
    obtain ⟨last, hkeyed, hend⟩ := key_next hkey htag
      (skipWs_blank hc (hws.run (keyOk_run hkey)) hrest)
    refine ⟨fun _ => ⟨_, last, ?_, rfl, hlast hend⟩, fun hno => absurd trivial hno⟩
    simp [requirement, hne, hnext, hkeyed]
  | @keyExists key hkey =>
    obtain ⟨next, hnext, hrest⟩ := key_next hkey htag hstart
    have hafter := hlast hrest
    have htest : next.skipWs.rest = [] ∨ next.skipWs.rest.head? = some ',' := hafter ▸ hends
    refine ⟨fun _ => ⟨_, next.skipWs, ?_, rfl, ?_⟩, fun hno => absurd trivial hno⟩
    · simp [requirement, hne, hkeyed hkey hstart, hnext, htest]
    · exact skipWs_blank (a := []) (fun _ hc => by cases hc) (hends.stops (by decide)) hafter
  | @notEq c d key value hkey hc hd hvalue =>
    simp only [List.append_assoc, List.cons_append] at hstart
    obtain ⟨next, hnext, hrest⟩ := key_next hkey (stops_blank hc (.cons (by decide))) hstart
    have hafter := skipWs_blank hc (.cons (by decide)) hrest
    obtain ⟨more, hmore, hrest⟩ := @eat_next next.skipWs _ ['!', '='] hafter
    obtain ⟨last, hlastv, hend⟩ := value_next hvalue htag
      (skipWs_blank hd (hws.run (valueOk_run hvalue)) hrest)
    refine ⟨fun _ => ⟨_, last, ?_, rfl, hlast hend⟩, fun hno => absurd trivial hno⟩
    simp [requirement, hne, hkeyed hkey hstart, hnext, hafter, hmore, hlastv]
  | @eq c d key value hkey hc hd hvalue =>
    simp only [List.append_assoc, List.cons_append] at hstart
    obtain ⟨next, hnext, hrest⟩ := key_next hkey (stops_blank hc (.cons (by decide))) hstart
    have hafter := skipWs_blank hc (.cons (by decide)) hrest
    have hother : next.skipWs.eat ['!', '='] = none := eat_other (by simp [hafter])
    obtain ⟨more, hmore, hrest⟩ := @eat_next next.skipWs _ ['='] hafter
    obtain ⟨last, hlastv, hend⟩ := value_next hvalue htag
      (skipWs_blank hd (hws.run (valueOk_run hvalue)) hrest)
    refine ⟨fun _ => ⟨_, last, ?_, rfl, hlast hend⟩, fun hno => absurd trivial hno⟩
    simp [requirement, hne, hkeyed hkey hstart, hnext, hafter, hother, hmore, hlastv]
  | @notIn c d set key values hkey hne' hc hd hset =>
    have hword : "notin".toList = ['n', 'o', 't', 'i', 'n'] := rfl
    simp only [List.append_assoc, List.cons_append, List.nil_append, hword] at hstart
    obtain ⟨next, hnext, hrest⟩ := key_next hkey (stops_spaced hne' hc) hstart
    have hafter := skipWs_blank hc (.cons (by decide)) hrest
    have hother : ∀ {c : Char} {cs : List Char}, c ≠ 'n' → next.skipWs.eat (c :: cs) = none :=
      fun hc => eat_other (by simpa [hafter] using hc.symm)
    obtain ⟨more, hmore, hrest⟩ := word_next ['n', 'o', 't', 'i', 'n'] hd hafter
    obtain ⟨hfit, hlong⟩ := gives_valueSet hd hset hrest
    constructor
    · intro hlength
      obtain ⟨set, last, hread, rfl, hend⟩ := hfit hlength
      refine ⟨_, last, ?_, rfl, hlast hend⟩
      simp [requirement, hne, hkeyed hkey hstart, hnext, hafter, hother, hmore, hread]
    · intro hlength
      obtain ⟨e, he⟩ := hlong hlength
      refine ⟨e, ?_⟩
      simp [requirement, Check.bind_eq_error, hne, hkeyed hkey hstart, hnext, hafter, hother,
        hmore, he]
  | @isIn c d set key values hkey hne' hc hd hset =>
    have hword : "in".toList = ['i', 'n'] := rfl
    simp only [List.append_assoc, List.cons_append, List.nil_append, hword] at hstart
    obtain ⟨next, hnext, hrest⟩ := key_next hkey (stops_spaced hne' hc) hstart
    have hafter := skipWs_blank hc (.cons (by decide)) hrest
    have hother : ∀ {c : Char} {cs : List Char}, c ≠ 'i' → next.skipWs.eat (c :: cs) = none :=
      fun hc => eat_other (by simpa [hafter] using hc.symm)
    have hnone : next.skipWs.eatWord ['n', 'o', 't', 'i', 'n'] = none := by
      rw [eatWord, hother (by decide), Option.filter_none]
    obtain ⟨more, hmore, hrest⟩ := word_next ['i', 'n'] hd hafter
    obtain ⟨hfit, hlong⟩ := gives_valueSet hd hset hrest
    constructor
    · intro hlength
      obtain ⟨set, last, hread, rfl, hend⟩ := hfit hlength
      refine ⟨_, last, ?_, rfl, hlast hend⟩
      simp [requirement, hne, hkeyed hkey hstart, hnext, hafter, hother, hnone, hmore,
        hread]
    · intro hlength
      obtain ⟨e, he⟩ := hlong hlength
      refine ⟨e, ?_⟩
      simp [requirement, Check.bind_eq_error, hne, hkeyed hkey hstart, hnext, hafter, hother,
        hnone, hmore, he]

/-- The parser accepts what the grammar lists, if and only if it keeps the limits. -/
theorem gives_requirements (room : Nat) (hlists : Lists cs reqs) (h : p.rest = cs) :
    (reqs.length ≤ room ∧ (∀ req ∈ reqs, req.Fits) →
      ∃ read, p.requirements room = .ok read ∧ read.map (·.2) = reqs) ∧
    (¬ (reqs.length ≤ room ∧ ∀ req ∈ reqs, req.Fits) →
      ∃ e, p.requirements room = .error e) := by
  induction room generalizing p cs reqs with
  | zero =>
    refine ⟨fun hfits => ?_, fun _ => ⟨_, rfl⟩⟩
    cases hlists <;> simp at hfits
  | succ room ih =>
    cases hlists with
    | last hsegment =>
      obtain ⟨ha, htext, hb⟩ := hsegment
      obtain ⟨hfit, hlong⟩ := gives_requirement htext ha hb (.inl rfl)
        (show p.rest = _ ++ (_ ++ (_ ++ [])) by simpa using h)
      constructor
      · intro hfits
        obtain ⟨_, after, hreq, rfl, hend⟩ := hfit (hfits.2 _ List.mem_cons_self)
        exact ⟨[(p.skipWs.i, _)], by simp [requirements, hreq, hend], rfl⟩
      · intro hlimit
        obtain ⟨e, he⟩ := hlong fun hfits => hlimit (by simpa using hfits)
        exact ⟨e, by simp [requirements, Check.bind_eq_error, he]⟩
    | @more _ tail req reqs hsegment htail =>
      obtain ⟨ha, htext, hb⟩ := hsegment
      obtain ⟨hfit, hlong⟩ := gives_requirement htext ha hb (.inr rfl)
        (show p.rest = _ ++ (_ ++ (_ ++ ',' :: tail)) by simpa using h)
      by_cases hkeeps : req.Fits
      · obtain ⟨same, after, hreq, rfl, hend⟩ := hfit hkeeps
        obtain ⟨next, hnext, hrest⟩ := @eat_next after.skipWs _ [','] hend
        have hlater : Lists next.skipWs.rest reqs := by
          show Lists (next.rest.dropWhile _) reqs
          rw [hrest]
          exact htail.trimStart trims_isAsciiWhitespace
        obtain ⟨hfits, hlimit⟩ := ih hlater rfl
        have hne := hlater.ne_nil
        constructor
        · intro hall
          obtain ⟨read, hread, hmap⟩ :=
            hfits ⟨by simpa using hall.1, fun req hreq => hall.2 req (.tail _ hreq)⟩
          exact ⟨(p.skipWs.i, same) :: read, by simp [requirements, hreq, hend, hnext, hne, hread],
            by rw [List.map_cons, hmap]⟩
        · intro hall
          obtain ⟨e, he⟩ := hlimit fun hrest =>
            hall ⟨by simpa using hrest.1, List.forall_mem_cons.mpr ⟨hkeeps, hrest.2⟩⟩
          exact ⟨e, by simp [requirements, Check.bind_eq_error, hreq, hend, hnext, hne, he]⟩
      · obtain ⟨e, he⟩ := hlong hkeeps
        refine ⟨fun hall => absurd (hall.2 req List.mem_cons_self) hkeeps, fun _ => ⟨e, ?_⟩⟩
        simp [requirements, Check.bind_eq_error, he]

end Parser
/-! ## Equalities -/

theorem mem_sortedUnique {values : List String} {value : String} :
    value ∈ sortedUnique values ↔ value ∈ values := by
  rw [sortedUnique, SortedMap.mem_keys_ofList, List.map_map]
  exact Iff.of_eq (congrArg (value ∈ ·) (List.map_id values))

theorem nodup_sortedUnique (values : List String) : (sortedUnique values).Nodup :=
  SortedMap.nodup_keys _

/-- Distinct elements are all the same when there is at most one. -/
theorem length_le_one_iff {l : List String} (h : l.Nodup) :
    l.length ≤ 1 ↔ ∀ a ∈ l, ∀ b ∈ l, a = b := by
  cases l with
  | nil => simp
  | cons a l =>
    cases l with
    | nil => simp
    | cons b l =>
      obtain ⟨hne, -⟩ := List.nodup_cons.mp h
      refine iff_of_false (by simp) fun hall => hne ?_
      rw [hall a (by simp) b (by simp)]
      exact List.mem_cons_self

/-- The equalities of a key ask for one value. -/
def EqualitiesAgree (reqs : List Requirement) : Prop :=
  ∀ key value value', .eq key value ∈ reqs → .eq key value' ∈ reqs → value = value'

section
variable {read : List (Nat × Requirement)}

theorem mem_eqValues {key value : String} :
    value ∈ (eqValues read key).map (·.2) ↔ .eq key value ∈ read.map (·.2) := by
  simp only [eqValues, List.mem_map, List.mem_filterMap]
  constructor
  · rintro ⟨⟨start, _⟩, ⟨⟨start', req⟩, hreq, hvalue⟩, rfl⟩
    cases req with
    | eq other value =>
      simp only [Option.ite_none_right_eq_some, Option.some.injEq, Prod.mk.injEq] at hvalue
      obtain ⟨rfl, -, rfl⟩ := hvalue
      exact ⟨_, hreq, rfl⟩
    | _ => cases hvalue
  · rintro ⟨⟨start, _⟩, hreq, rfl⟩
    exact ⟨(start, value), ⟨_, hreq, by simp⟩, rfl⟩

theorem conflicts_eq_nil : conflicts read = [] ↔ EqualitiesAgree (read.map (·.2)) := by
  have hcount : ∀ key, ¬ (decide (1 < (sortedUnique ((eqValues read key).map (·.2))).length) = true)
      ↔ ∀ value, .eq key value ∈ read.map (·.2) →
        ∀ value', .eq key value' ∈ read.map (·.2) → value = value' := by
    intro key
    rw [decide_eq_true_eq, not_lt, length_le_one_iff (nodup_sortedUnique _)]
    simp only [mem_sortedUnique, mem_eqValues]
  simp only [conflicts, List.filter_eq_nil_iff, hcount]
  constructor
  · intro h key value value' hvalue hvalue'
    refine h key (mem_sortedUnique.mpr ?_) value hvalue value' hvalue'
    obtain ⟨entry, hentry, heq⟩ := List.mem_map.mp hvalue
    exact List.mem_filterMap.mpr ⟨entry, hentry, by rw [heq]; rfl⟩
  · exact fun h key _ value hvalue value' hvalue' => h key value value' hvalue hvalue'

/-- The equalities that stay are the first of their keys. -/
theorem mem_firstEqualities {seen : List String} {req : Requirement}
    (h : EqualitiesAgree (read.map (·.2))) :
    req ∈ firstEqualities seen read ↔
      req ∈ read.map (·.2) ∧ ∀ key, req.eqKey? = some key → key ∉ seen := by
  induction read generalizing seen with
  | nil => simp [firstEqualities]
  | cons entry read ih =>
    have hrest : EqualitiesAgree (read.map (·.2)) := fun key value value' hvalue hvalue' =>
      h key value value' (.tail _ hvalue) (.tail _ hvalue')
    obtain ⟨start, head⟩ := entry
    rw [List.map_cons, List.mem_cons]
    have hplain : head.eqKey? = none → (req ∈ head :: firstEqualities seen read ↔
        (req = head ∨ req ∈ read.map (·.2)) ∧ ∀ key, req.eqKey? = some key → key ∉ seen) := by
      intro hnone
      rw [List.mem_cons, ih hrest]
      constructor
      · rintro (rfl | ⟨hmem, hseen⟩)
        · exact ⟨.inl rfl, fun key hkey => by rw [hnone] at hkey; cases hkey⟩
        · exact ⟨.inr hmem, hseen⟩
      · rintro ⟨rfl | hmem, hseen⟩
        · exact .inl rfl
        · exact .inr ⟨hmem, hseen⟩
    cases head with
    | eq key value =>
      rw [firstEqualities]
      split
      · next hkey =>
        rw [ih hrest]
        refine and_congr_left fun hseen => (or_iff_right ?_).symm
        rintro rfl
        exact hseen key rfl hkey
      · next hkey =>
        rw [List.mem_cons, ih hrest]
        constructor
        · rintro (rfl | ⟨hmem, hseen⟩)
          · exact ⟨.inl rfl, fun other hother => by cases hother; exact hkey⟩
          · exact ⟨.inr hmem, fun other hother hin => hseen other hother (.tail _ hin)⟩
        · rintro ⟨rfl | hmem, hseen⟩
          · exact .inl rfl
          · by_cases hsame : req.eqKey? = some key
            · -- The first equality of the key, which this one repeats.
              cases req with
              | eq other value' =>
                cases hsame
                rw [h key value' value (.tail _ hmem) List.mem_cons_self]
                exact .inl rfl
              | _ => cases hsame
            · refine .inr ⟨hmem, fun other hother hin => ?_⟩
              rcases List.mem_cons.mp hin with rfl | hin
              · exact hsame hother
              · exact hseen other hother hin
    | _ => exact hplain rfl

theorem rejectConflictingEquality_ok {reqs : List Requirement}
    (h : rejectConflictingEquality read = .ok reqs) :
    EqualitiesAgree (read.map (·.2)) ∧ ∀ req, req ∈ reqs ↔ req ∈ read.map (·.2) := by
  rw [rejectConflictingEquality] at h
  cases hconflicts : conflicts read with
  | cons key keys =>
    rw [hconflicts] at h
    cases h
  | nil =>
    rw [hconflicts] at h
    cases h
    have hagree := conflicts_eq_nil.mp hconflicts
    exact ⟨hagree, fun req => by simp [mem_firstEqualities hagree]⟩

theorem rejectConflictingEquality_of_agree (h : EqualitiesAgree (read.map (·.2))) :
    ∃ reqs, rejectConflictingEquality read = .ok reqs := by
  rw [rejectConflictingEquality, conflicts_eq_nil.mpr h]
  exact ⟨_, rfl⟩

end

/-! ## Selectors -/

theorem range_of_tagChar {c : Char} (h : isTagChar c = true) :
    (97 ≤ c.toNat ∧ c.toNat ≤ 122) ∨ (45 ≤ c.toNat ∧ c.toNat ≤ 57) ∨ c.toNat = 95 := by
  simp only [isTagChar, isAsciiLowercase, isAsciiDigit, Bool.or_eq_true, Bool.and_eq_true,
    decide_eq_true_eq, beq_iff_eq] at h
  rcases h with (((h | h) | rfl) | rfl) | rfl
  · exact .inl h
  · exact .inr (.inl ⟨le_trans (by decide) h.1, h.2⟩)
  · exact .inr (.inl (by decide))
  · exact .inr (.inr rfl)
  · exact .inr (.inl (by decide))

theorem not_whiteSpace_of_tagChar {c : Char} (h : isTagChar c = true) : isWhiteSpace c = false := by
  have hrange := range_of_tagChar h
  simp only [isWhiteSpace, Bool.or_eq_false_iff, Bool.and_eq_false_iff, decide_eq_false_iff_not,
    beq_eq_false_iff_ne]
  omega

theorem trims_isWhiteSpace : Trims isWhiteSpace := by
  refine ⟨fun c h => ?_, fun _ => not_whiteSpace_of_tagChar, by decide, by decide⟩
  rw [isAsciiWhitespace] at h
  simp only [Bool.or_eq_true, beq_iff_eq] at h
  rcases h with (((rfl | rfl) | rfl) | rfl) | rfl <;> rfl

section
variable {input : List Char} {reqs : List Requirement}

theorem Lists.trim (h : Lists input reqs) {p : Char → Bool} (hp : Trims p) :
    Lists (trimEndMatches p (input.dropWhile p)) reqs := ((h.trimStart hp).trimEnd hp).1

/-- A list has a key. -/
theorem Lists.tagChar (h : Lists input reqs) : ∃ c ∈ input, isTagChar c = true := by
  have hdenotes : ∀ {text req}, Denotes text req → ∃ c ∈ text, isTagChar c = true := by
    intro text req htext
    cases htext with
    | notExists ha hkey =>
      obtain ⟨c, tail, hkeyed⟩ := List.exists_cons_of_ne_nil (keyOk_run hkey).1
      exact ⟨c, by simp [hkeyed], (keyOk_run hkey).2 c (by simp [hkeyed])⟩
    | keyExists hkey | notEq hkey | eq hkey | notIn hkey | isIn hkey =>
      obtain ⟨c, tail, hkeyed⟩ := List.exists_cons_of_ne_nil (keyOk_run hkey).1
      exact ⟨c, by simp [hkeyed], (keyOk_run hkey).2 c (by simp [hkeyed])⟩
  cases h with
  | last hsegment | more hsegment =>
    obtain ⟨-, htext, -⟩ := hsegment
    obtain ⟨c, hc, htag⟩ := hdenotes htext
    exact ⟨c, by simp [hc], htag⟩

/-- A list that agrees and is short is a selector if and only if its sets are small. -/
theorem parseSelector_of_lists (h : Lists input reqs) (hlength : input.length ≤ maxSelectorChars)
    (hcount : reqs.length ≤ maxRequirements) (hagree : EqualitiesAgree reqs) :
    ((∀ req ∈ reqs, req.Fits) → ∃ selector, parseSelector input = .ok (.filter selector) ∧
      ∀ req, req ∈ selector.requirements ↔ req ∈ reqs) ∧
    (¬ (∀ req ∈ reqs, req.Fits) → ∃ e, parseSelector input = .error e) := by
  have htrim : Lists (trim input) reqs := h.trim trims_isWhiteSpace
  have hempty : trim input ≠ [] := htrim.ne_nil
  have hstar : trim input ≠ ['*'] := by
    intro heq
    obtain ⟨c, hc, htag⟩ := htrim.tagChar
    rw [heq, List.mem_singleton] at hc
    rw [hc] at htag
    exact absurd htag (by decide)
  have hstart : Lists (Parser.mk 0 input).skipWs.rest reqs := h.trimStart trims_isAsciiWhitespace
  obtain ⟨hfits, hlimit⟩ := Parser.gives_requirements maxRequirements hstart rfl
  constructor
  · intro hall
    obtain ⟨read, hread, rfl⟩ := hfits ⟨hcount, hall⟩
    obtain ⟨out, hout⟩ := rejectConflictingEquality_of_agree hagree
    refine ⟨⟨out, canonicalOf out⟩, ?_, (rejectConflictingEquality_ok hout).2⟩
    simp [parseSelector, hlength.not_gt, hempty, hstar, hread, hout]
  · intro hall
    obtain ⟨e, he⟩ := hlimit fun hboth => hall hboth.2
    refine ⟨e, ?_⟩
    simp [parseSelector, Check.bind_eq_error, hlength.not_gt, hempty, hstar, he]

end

/-! ## Canonical text -/

/-- The key and the values have their formats. -/
def Requirement.Formed : Requirement → Prop
  | .eq key value | .notEq key value => keyOk key = true ∧ valueOk value = true
  | .isIn key values | .notIn key values =>
    keyOk key = true ∧ values ≠ [] ∧ ∀ value ∈ values, valueOk value = true
  | .keyExists key | .notExists key => keyOk key = true

section
variable {text : List Char} {values : List String} {req : Requirement} {reqs : List Requirement}

theorem DenotesSet.formed (h : DenotesSet text values) :
    values ≠ [] ∧ ∀ value ∈ values, valueOk value = true := by
  induction h with
  | last ha hvalue hb => exact ⟨List.cons_ne_nil _ _, by simpa using hvalue⟩
  | more ha hvalue hb _ ih =>
    exact ⟨List.cons_ne_nil _ _, List.forall_mem_cons.mpr ⟨hvalue, ih.2⟩⟩

/-- The values take no more room than their text. -/
theorem DenotesSet.sum_length (h : DenotesSet text values) :
    (values.map (·.length + 1)).sum ≤ text.length + 1 := by
  induction h with
  | last ha hvalue hb =>
    simp only [List.map_singleton, List.sum_singleton, List.length_append, String.length_toList]
    omega
  | more ha hvalue hb _ ih =>
    simp only [List.map_cons, List.sum_cons, List.length_append, List.length_cons,
      String.length_toList] at ih ⊢
    omega

theorem Denotes.formed (h : Denotes text req) : req.Formed := by
  cases h with
  | notExists ha hkey => exact hkey
  | keyExists hkey => exact hkey
  | notEq hkey ha hb hvalue => exact ⟨hkey, hvalue⟩
  | eq hkey ha hb hvalue => exact ⟨hkey, hvalue⟩
  | notIn hkey hne ha hb hset => exact ⟨hkey, hset.formed⟩
  | isIn hkey hne ha hb hset => exact ⟨hkey, hset.formed⟩

theorem Lists.formed (h : Lists text reqs) : ∀ req ∈ reqs, req.Formed := by
  induction h with
  | last hsegment =>
    obtain ⟨-, htext, -⟩ := hsegment
    simpa using htext.formed
  | more hsegment _ ih =>
    obtain ⟨-, htext, -⟩ := hsegment
    exact List.forall_mem_cons.mpr ⟨htext.formed, ih⟩

theorem blank_nil : Blank [] := fun _ hc => by cases hc

theorem denotes_intercalate (hne : values ≠ []) (h : ∀ value ∈ values, valueOk value = true) :
    DenotesSet (",".intercalate values).toList values := by
  induction values with
  | nil => exact absurd rfl hne
  | cons value values ih =>
    obtain ⟨hvalue, hrest⟩ := List.forall_mem_cons.mp h
    cases values with
    | nil =>
      have hlast := DenotesSet.last blank_nil hvalue blank_nil
      rwa [List.nil_append, List.append_nil] at hlast
    | cons next values =>
      have hmore := DenotesSet.more blank_nil hvalue blank_nil (ih (List.cons_ne_nil _ _) hrest)
      rw [String.intercalate_cons_cons, String.toList_append, String.toList_append,
        List.append_assoc]
      exact hmore

theorem length_intercalate (h : values ≠ []) :
    (",".intercalate values).length + 1 = (values.map (·.length + 1)).sum := by
  induction values with
  | nil => exact absurd rfl h
  | cons value values ih =>
    cases values with
    | nil => simp
    | cons next values =>
      rw [String.intercalate_cons_cons, String.length_append, String.length_append, List.map_cons,
        List.sum_cons, ← ih (List.cons_ne_nil _ _)]
      have hcomma : ",".length = 1 := rfl
      omega

/-- Canonical text denotes its requirement. -/
theorem denotes_canonical (h : req.Formed) : Denotes req.canonical.toList req := by
  have hspace : Blank [' '] := fun c hc => by
    rw [List.mem_singleton.mp hc]
    rfl
  cases req with
  | eq key value =>
    rw [Requirement.canonical, String.toList_append, String.toList_append, List.append_assoc]
    exact .eq h.1 blank_nil blank_nil h.2
  | notEq key value =>
    rw [Requirement.canonical, String.toList_append, String.toList_append, List.append_assoc]
    exact .notEq h.1 blank_nil blank_nil h.2
  | isIn key values =>
    have hset := denotes_intercalate h.2.1 h.2.2
    have hdenotes := Denotes.isIn h.1 (List.cons_ne_nil ' ' []) hspace hspace hset
    simpa [Requirement.canonical] using hdenotes
  | notIn key values =>
    have hset := denotes_intercalate h.2.1 h.2.2
    have hdenotes := Denotes.notIn h.1 (List.cons_ne_nil ' ' []) hspace hspace hset
    simpa [Requirement.canonical] using hdenotes
  | keyExists key => exact .keyExists h
  | notExists key =>
    rw [Requirement.canonical, String.toList_append]
    exact .notExists blank_nil h

/-- Texts with commas between them list what they denote. -/
theorem lists_intercalate {texts : List String} (hne : reqs ≠ [])
    (h : List.Forall₂ (fun text req => Denotes text.toList req) texts reqs) :
    Lists (",".intercalate texts).toList reqs := by
  have hsegment : ∀ {text : String} {req : Requirement}, Denotes text.toList req →
      Segment text.toList req := by
    intro text req htext
    have hsegment := Segment.mk blank_nil htext blank_nil
    rwa [List.nil_append, List.append_nil] at hsegment
  induction h with
  | nil => exact absurd rfl hne
  | cons htext hrest ih =>
    cases hrest with
    | nil => exact .last (hsegment htext)
    | cons hnext hrest =>
      rw [String.intercalate_cons_cons, String.toList_append, String.toList_append,
        List.append_assoc]
      exact .more (hsegment htext) (ih (List.cons_ne_nil _ _))

/-- So does canonical text. -/
theorem lists_canonical (hne : reqs ≠ []) (h : ∀ req ∈ reqs, req.Formed) :
    Lists (",".intercalate (reqs.map (·.canonical))).toList reqs := by
  refine lists_intercalate hne (List.forall₂_map_left_iff.mpr (List.forall₂_same.mpr ?_))
  exact fun req hreq => denotes_canonical (h req hreq)

end

end Novbot.Tags
