import Novbot.Tags.Canonical
import Novbot.Targets.Resolve

/-!
# Stored targets

A target schedule keeps the canonical text of its selector, and `rematch` of
`novbot-center/src/targets.rs` parses that text again whenever the nodes are matched anew.

The text is read as the selector it was made of if and only if what it requires has room in
canonical text (`reread_iff`), and then the stored target has the nodes of the target of the
request (`mem_rematch`).
-/

namespace Novbot.Targets

open Text Tags

/-- The nodes that the stored target of a schedule matches now. -/
def rematch (inventory : List InventoryNode) (selector : Option String)
    (picked : Option (List String)) (excluded : List String) : Except TargetError (List String) :=
  let body : Option TargetBody := match selector.filter (· ≠ "") with
    | some selector => some ⟨some selector, none, excluded, none⟩
    | none => picked.map fun ids => ⟨none, some ids, excluded, none⟩
  match body with
  | none => pure []
  | some body => do
    let parsed ← parseTarget body
    match parsed.mode with
    | .nodes ids =>
      -- A picked node that is gone is left out.
      return ids.filter fun id =>
        !parsed.excluded.contains id && inventory.any fun node => node.nodeId = id
    | .selector _ =>
      let matched ← resolveParsed inventory parsed
      return matched.nodes.map (·.nodeId)

/-- The tags meet what was parsed. -/
def Meets (parsed : SelectorParse) (tags : SortedMap String String) : Prop :=
  parsed = .all ∨ ∃ selector, parsed = .filter selector ∧ selectorMatches selector tags = true

/-- The canonical text is within the limit and is read as what it was made of. -/
def Reread (parsed : SelectorParse) : Prop :=
  ∀ text, canonicalSelector parsed = some text → text.length ≤ maxSelectorChars ∧
    ∃ again, parseSelector text.toList = .ok again ∧ canonicalSelector again = some text ∧
      ∀ tags, Meets again tags ↔ Meets parsed tags

section
variable {input : List Char} {parsed : SelectorParse} {reqs : List Requirement}

theorem reread_filter_iff (h : Proper reqs) :
    Reread (.filter ⟨reqs, canonicalOf reqs⟩) ↔
      (reqs.map (·.room)).sum ≤ maxSelectorChars + 1 := by
  rw [← h.length, Nat.add_le_add_iff_right]
  refine ⟨fun hreread => (hreread _ rfl).1, fun hlength text htext => ?_⟩
  cases htext
  refine ⟨hlength, _, h.parse hlength, rfl, fun tags => ?_⟩
  have hmatch : selectorMatches ⟨inOrder reqs, canonicalOf reqs⟩ tags =
      selectorMatches ⟨reqs, canonicalOf reqs⟩ tags := all_inOrder tags
  constructor
  · rintro (hall | ⟨_, hfilter, hmatches⟩)
    · cases hall
    · cases hfilter
      exact .inr ⟨_, rfl, hmatch ▸ hmatches⟩
  · rintro (hall | ⟨_, hfilter, hmatches⟩)
    · cases hall
    · cases hfilter
      exact .inr ⟨_, rfl, hmatch.trans hmatches⟩

/-- A selector is reread if and only if its requirements have room, each once. -/
theorem reread_iff (h : parseSelector input = .ok parsed) :
    Reread parsed ↔ ∀ reqs, Lists input reqs →
      ((withoutRepeats [] reqs).map (·.room)).sum ≤ maxSelectorChars + 1 := by
  cases parsed with
  | empty =>
    refine iff_of_true (fun _ htext => by cases htext) fun reqs hlists => ?_
    exact absurd (parseSelector_empty_iff.mp h).2 hlists.trim_ne.1
  | all =>
    refine iff_of_true (fun text htext => ?_) fun reqs hlists => ?_
    · cases htext
      exact ⟨by decide, .all, by decide, rfl, fun _ => Iff.rfl⟩
    · exact absurd (parseSelector_all_iff.mp h).2 hlists.trim_ne.2
  | filter selector =>
    obtain ⟨-, reqs, hlists, hcount, hfits, hagree, rfl⟩ := parseSelector_filter_iff.mp h
    refine (reread_filter_iff (proper_of_lists hlists hcount hfits hagree)).trans ?_
    constructor
    · intro hroom reqs' hlists'
      cases hlists.unique hcount hfits hlists'
      exact hroom
    · exact fun hall => hall reqs hlists

theorem reread_iff_set : Reread (.filter ⟨[.isIn "env" ["a"]], "env in (a)"⟩) ↔
    ∀ reqs, Lists "env in(a)".toList reqs →
      ((withoutRepeats [] reqs).map (·.room)).sum ≤ maxSelectorChars + 1 :=
  reread_iff (by decide +kernel)

/-- Sets that are written without the space outgrow the limit. -/
theorem tight_sets_outgrow : ∃ selector,
    parseSelector (",".intercalate (List.replicate 16
      (String.ofList (List.replicate 57 'k') ++ " in(v)"))).toList = .ok (.filter selector) ∧
    ¬ Reread (.filter selector) := by
  have hkey : keyOk (String.ofList (List.replicate 57 'k')) = true := by decide
  have hwidth : (String.ofList (List.replicate 57 'k')).length = 57 := by decide
  generalize String.ofList (List.replicate 57 'k') = key at hkey hwidth ⊢
  have hvalue : valueOk "v" = true := by decide
  have htext : Denotes (key ++ " in(v)").toList (.isIn key ["v"]) := by
    have hblank : Blank [' '] := fun c hc => by cases List.mem_singleton.mp hc; rfl
    have hset := DenotesSet.last blank_nil hvalue blank_nil
    rw [String.toList_append]
    exact .isIn hkey (List.cons_ne_nil ' ' []) hblank blank_nil hset
  have hall : ∀ count, List.Forall₂ (fun text req => Denotes text.toList req)
      (List.replicate count (key ++ " in(v)")) (List.replicate count (.isIn key ["v"])) := by
    intro count
    induction count with
    | zero => exact .nil
    | succ count ih => exact .cons htext ih
  have hlists := lists_intercalate (by simp) (hall 16)
  have hlength : (",".intercalate (List.replicate 16 (key ++ " in(v)"))).toList.length ≤
      maxSelectorChars := by
    have hne : List.replicate 16 (key ++ " in(v)") ≠ [] := by simp
    have hsum := length_intercalate hne
    have hword : " in(v)".length = 6 := rfl
    rw [List.map_replicate, List.sum_replicate_nat, String.length_append, hwidth, hword] at hsum
    rw [String.length_toList, maxSelectorChars]
    omega
  have hagree : EqualitiesAgree (List.replicate 16 (.isIn key ["v"])) :=
    fun key value value' hvalue => by cases List.eq_of_mem_replicate hvalue
  have hfits : ∀ req ∈ List.replicate 16 (Requirement.isIn key ["v"]), req.Fits :=
    fun req hreq => by rw [List.eq_of_mem_replicate hreq]; exact Nat.le_of_ble_eq_true rfl
  have hcount : (List.replicate 16 (Requirement.isIn key ["v"])).length ≤ maxRequirements := by
    simp [maxRequirements]
  have hproper := proper_of_lists hlists hcount hfits hagree
  refine ⟨_, parseSelector_filter_iff.mpr ⟨hlength, _, hlists, hcount, hfits, hagree, rfl⟩, ?_⟩
  rw [selectorOf, reread_filter_iff hproper, not_le]
  have hself : withoutRepeats [] (List.replicate 16 (Requirement.isIn key ["v"])) =
      List.replicate 16 (.isIn key ["v"]) := rfl
  have hroom : (Requirement.isIn key ["v"]).room = key.length + 8 := rfl
  rw [hself, List.map_replicate, List.sum_replicate_nat, hroom, hwidth]
  decide

end

/-- Selectors that only outgrow the limit without the space keep it with the space. -/
theorem reread_of_spaced {input : List Char} {selector : Selector}
    (h : parseSelector input = .ok (.filter selector)) (hspaced : Spaced input) :
    Reread (.filter selector) := by
  obtain ⟨hlength, reqs, hlists, hcount, hfits, hagree, rfl⟩ := parseSelector_filter_iff.mp h
  refine (reread_filter_iff (proper_of_lists hlists hcount hfits hagree)).mpr ?_
  have hsub := ((withoutRepeats_sublist [] reqs).map (·.room)).sum_le_sum fun _ _ => Nat.zero_le _
  exact hsub.trans ((hlists.sum_room_le hspaced).trans (Nat.succ_le_succ hlength))

/-! ## Rematching -/

section
variable {parsed : SelectorParse}

theorem selects_iff {raw : String} (h : parseSelector (trim raw.toList) = .ok parsed)
    (tags : SortedMap String String) : Selects raw tags ↔ Meets parsed tags := by
  constructor
  · rintro ⟨other, hother, hmeets⟩
    cases h.symm.trans hother
    exact hmeets
  · exact fun hmeets => ⟨parsed, h, hmeets⟩

/-- A target with a selector is resolved. -/
theorem rematch_selector (inventory : List InventoryNode) {text : String} (excluded : List String)
    (h : parseSelector (trim text.toList) = .ok parsed) (hne : parsed ≠ .empty) :
    ∃ target matched, parseTarget ⟨some text, none, excluded, none⟩ = .ok target ∧
      resolveParsed inventory target = .ok matched ∧
      rematch inventory (some text) none excluded = .ok (matched.nodes.map (·.nodeId)) := by
  have hkept : trimmed text ≠ "" := by
    intro hblank
    rw [← String.toList_ofList (l := trim text.toList), ← trimmed, hblank] at h
    exact hne (Except.ok.inj h).symm
  have hsome : text ≠ "" := by
    rintro rfl
    exact hkept (by decide)
  have htarget : parseTarget ⟨some text, none, excluded, none⟩ =
      .ok ⟨.selector parsed, canonicalSelector parsed, none, Schedules.sortedUnique excluded,
        none⟩ := by
    have hfilter : ((some text).map trimmed).filter (· ≠ "") = some (trimmed text) :=
      Option.filter_some_pos (by simpa using hkept)
    have hread : parseSelector (trimmed text).toList = .ok parsed := by
      rw [trimmed, String.toList_ofList]
      exact h
    simp only [parseTarget, hfilter, hread, Except.mapError, Check.throw_bind]
    exact if_neg hne
  obtain ⟨matched, hmatched⟩ : ∃ matched, resolveParsed inventory ⟨.selector parsed,
      canonicalSelector parsed, none, Schedules.sortedUnique excluded, none⟩ = .ok matched := by
    cases parsed with
    | empty => exact absurd rfl hne
    | all => exact ⟨_, rfl⟩
    | filter selector => exact ⟨_, rfl⟩
  refine ⟨_, matched, htarget, hmatched, ?_⟩
  have hfilter : (some text).filter (· ≠ "") = some text :=
    Option.filter_some_pos (by simpa using hsome)
  simp only [rematch, hfilter, htarget]
  show (resolveParsed inventory _ >>= fun matched => pure (matched.nodes.map (·.nodeId))) = _
  rw [hmatched]
  rfl

/-- A stored selector that is reread has the nodes of the one in the request. -/
theorem mem_rematch {inventory : List InventoryNode} {raw text : String} {excluded : List String}
    (hparse : parseSelector (trim raw.toList) = .ok parsed) (hreread : Reread parsed)
    (htext : canonicalSelector parsed = some text) :
    ∃ ids, rematch inventory (some text) none excluded = .ok ids ∧
      ∀ id, id ∈ ids ↔ Targeted inventory ⟨some raw, none, excluded, none⟩ id := by
  obtain ⟨-, again, hagain, hsame, hmeets⟩ := hreread text htext
  have hne : again ≠ .empty := by
    rintro rfl
    cases hsame
  have htrim := parseSelector_trim hagain hne
  obtain ⟨target, matched, htarget, hmatched, hids⟩ :=
    rematch_selector inventory excluded htrim hne
  refine ⟨_, hids, fun id => (mem_resolveParsed htarget hmatched).trans ?_⟩
  have hselects : ∀ tags, Selects text tags ↔ Selects raw tags := fun tags => by
    rw [selects_iff htrim, hmeets, selects_iff hparse]
  simp [Targeted, hselects]

end

end Novbot.Targets
