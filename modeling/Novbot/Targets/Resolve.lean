import Mathlib.Data.List.Destutter
import Novbot.Schedules.Requests
import Novbot.Tags.Selector
import Novbot.Tags.Views

/-!
# Targets

A request names its nodes by a selector or by their ids, with exclusions, and
`novbot-center/src/targets.rs` resolves it against the inventory to a frozen list.

`Targeted` is what a target means: the known nodes that the selector matches or that the ids
name, without the excluded ones.  A resolution is exactly that (`mem_resolveParsed`), and a
`Matched` list is in order and has no node twice.
-/

namespace Novbot.Targets

open Text Tags

structure TargetBody where
  selector : Option String
  nodeIds : Option (List String)
  excludeNodeIds : List String
  expectedNodeIds : Option (List String)

inductive TargetError where
  | invalid (message : String)
  | selector (error : SelectorError)
  | unknown (ids : List String)
  | changed (added removed : List String)
  | empty
  | tooMany
  | prod (prodNodeIds : List String) (prodNodeCount : Nat)
  | timing (message : String)
  deriving DecidableEq, Repr

inductive Mode where
  | selector (parsed : SelectorParse)
  | nodes (ids : List String)

structure ParsedTarget where
  mode : Mode
  selector : Option String
  picked : Option (List String)
  excluded : List String
  expected : Option (List String)

/-- The nodes that a target matches. -/
structure Matched where
  nodes : List InventoryNode
  sorted : (nodes.map (·.nodeId)).Pairwise (· < ·)

def trimmed (text : String) : String := String.ofList (trim text.toList)

/-! ## Parsing -/

def modeError : TargetError :=
  .invalid "target must set exactly one of selector or node_ids"

def hasMode (target : TargetBody) : Bool :=
  (target.selector.any fun value => trimmed value ≠ "") || target.nodeIds.isSome

def coalesceTarget (target : Option TargetBody) (nodeIds : List String) :
    Except TargetError TargetBody :=
  match target.filter hasMode with
  | some target => .ok target
  | none =>
    if nodeIds.any fun id => trimmed id ≠ "" then .ok ⟨none, some nodeIds, [], none⟩
    else .error modeError

def canonicalSelector : SelectorParse → Option String
  | .all => some "*"
  | .filter selector => some selector.canonical
  | .empty => none

def parseTarget (body : TargetBody) : Except TargetError ParsedTarget :=
  let selector := (body.selector.map trimmed).filter (· ≠ "")
  let excluded := Schedules.sortedUnique body.excludeNodeIds
  let expected := body.expectedNodeIds.map Schedules.sortedUnique
  match selector, body.nodeIds with
  | some _, some _ => throw modeError
  | none, none => throw modeError
  | some raw, none => do
    let parsed ← (parseSelector raw.toList).mapError .selector
    if parsed = .empty then throw modeError
    return ⟨.selector parsed, canonicalSelector parsed, none, excluded, expected⟩
  | none, some ids =>
    let ids := Schedules.sortedUnique ids
    pure ⟨.nodes ids, none, some ids, excluded, expected⟩

/-! ## Resolving -/

/-- In order of their ids, the first of each. -/
def ordered (nodes : List InventoryNode) : List InventoryNode :=
  (nodes.mergeSort fun left right => left.nodeId ≤ right.nodeId).destutter
    fun left right => left.nodeId ≠ right.nodeId

section
variable {α : Type} {f : α → String} {l : List α}

/-- In a sorted list without equal neighbours the keys increase. -/
theorem increasing_of_chain (hle : l.Pairwise fun a b => f a ≤ f b)
    (hne : l.IsChain fun a b => f a ≠ f b) : (l.map f).Pairwise (· < ·) := by
  induction l with
  | nil => exact .nil
  | cons a l ih =>
    obtain ⟨hfirst, hrest⟩ := List.pairwise_cons.mp hle
    rw [List.map_cons, List.pairwise_cons]
    refine ⟨fun key hkey => ?_, ih hrest hne.tail⟩
    obtain ⟨b, hb, rfl⟩ := List.mem_map.mp hkey
    cases l with
    | nil => cases hb
    | cons c l =>
      have hac : f a < f c :=
        lt_of_le_of_ne (hfirst c List.mem_cons_self) (List.isChain_cons_cons.mp hne).1
      rcases List.mem_cons.mp hb with rfl | hb
      · exact hac
      · exact lt_of_lt_of_le hac ((List.pairwise_cons.mp hrest).1 b hb)

theorem mem_map_destutter {key : String} :
    key ∈ (l.destutter fun a b => f a ≠ f b).map f ↔ key ∈ l.map f := by
  have hfrom : ∀ (l : List α) a, key ∈ (l.destutter' (fun a b => f a ≠ f b) a).map f ↔
      key ∈ (a :: l).map f := by
    intro l
    induction l with
    | nil => exact fun a => Iff.rfl
    | cons b l ih =>
      intro a
      by_cases h : f a ≠ f b
      · rw [List.destutter'_cons_pos l h]
        simp only [List.map_cons, List.mem_cons, ih]
      · rw [List.destutter'_cons_neg l h, ih]
        rw [not_not] at h
        simp [h]
  cases l with
  | nil => rfl
  | cons a l => rw [List.destutter_cons', hfrom]

end

theorem ordered_sorted (nodes : List InventoryNode) :
    ((ordered nodes).map (·.nodeId)).Pairwise (· < ·) := by
  refine increasing_of_chain (.sublist (List.destutter_sublist _ _) ?_) (List.isChain_destutter _ _)
  have hsorted := @List.pairwise_mergeSort _ (fun a b : InventoryNode => a.nodeId ≤ b.nodeId)
    (fun a b c hab hbc => by simpa using le_trans (of_decide_eq_true hab) (of_decide_eq_true hbc))
    (fun a b => by simpa using le_total a.nodeId b.nodeId) nodes
  exact hsorted.imp of_decide_eq_true

theorem mem_ordered {nodes : List InventoryNode} {id : String} :
    id ∈ (ordered nodes).map (·.nodeId) ↔ id ∈ nodes.map (·.nodeId) := by
  rw [ordered, mem_map_destutter, List.mem_map, List.mem_map]
  simp only [List.mem_mergeSort]

theorem mem_of_mem_ordered {nodes : List InventoryNode} {node : InventoryNode}
    (h : node ∈ ordered nodes) : node ∈ nodes :=
  List.mem_mergeSort.mp ((List.destutter_sublist _ _).subset h)

def matchedNodes (inventory : List InventoryNode) (parsed : ParsedTarget) :
    Except TargetError (List InventoryNode) :=
  match parsed.mode with
  | .selector .all => .ok (inventory.filter fun node => !parsed.excluded.contains node.nodeId)
  | .selector (.filter selector) =>
    .ok (inventory.filter fun node =>
      !parsed.excluded.contains node.nodeId && selectorMatches selector node.tags)
  | .selector .empty => .error modeError
  | .nodes ids =>
    let byId := SortedMap.ofList (inventory.map fun node => (node.nodeId, node))
    let unknown := ids.filter fun id => (byId.lookup id).isNone
    if unknown ≠ [] then .error (.unknown (unknown.mergeSort (· ≤ ·)))
    else .ok (ids.filterMap fun id => if parsed.excluded.contains id then none else byId.lookup id)

def resolveParsed (inventory : List InventoryNode) (parsed : ParsedTarget) :
    Except TargetError Matched := do
  let nodes ← matchedNodes inventory parsed
  return ⟨ordered nodes, ordered_sorted nodes⟩

/-! ## What a target means -/

/-- The id that one of the texts names. -/
def Named (texts : List String) (id : String) : Prop :=
  ∃ text ∈ texts, trimmed text = id ∧ id ≠ ""

/-- The selector of a request matches the tags. -/
def Selects (raw : String) (tags : SortedMap String String) : Prop :=
  ∃ parsed, parseSelector (trim raw.toList) = .ok parsed ∧
    (parsed = .all ∨ ∃ selector, parsed = .filter selector ∧ selectorMatches selector tags = true)

/-- A node that the target matches. -/
def Targeted (inventory : List InventoryNode) (target : TargetBody) (id : String) : Prop :=
  (∃ node ∈ inventory, node.nodeId = id ∧
    ((∃ texts, target.nodeIds = some texts ∧ Named texts id) ∨
      ∃ raw, target.selector = some raw ∧ Selects raw node.tags)) ∧
  ¬ Named target.excludeNodeIds id

theorem mem_sortedUnique {texts : List String} {id : String} :
    id ∈ Schedules.sortedUnique texts ↔ Named texts id := by
  rw [Schedules.sortedUnique, SortedMap.mem_keys_ofList, List.map_map]
  simp only [List.mem_map, List.mem_filter, Function.comp_apply, exists_eq_right, decide_eq_true_eq]
  constructor
  · rintro ⟨⟨text, htext, rfl⟩, hne⟩
    exact ⟨text, htext, rfl, hne⟩
  · rintro ⟨text, htext, rfl, hne⟩
    exact ⟨⟨text, htext, rfl⟩, hne⟩

theorem sortedUnique_sorted (texts : List String) :
    (Schedules.sortedUnique texts).Pairwise (· < ·) :=
  List.pairwise_map.mpr (SortedMap.sorted _)

section
variable {inventory : List InventoryNode} {body : TargetBody} {parsed : ParsedTarget}
  {matched : Matched}

/-- What a parsed target holds. -/
theorem parseTarget_ok (h : parseTarget body = .ok parsed) :
    parsed.excluded = Schedules.sortedUnique body.excludeNodeIds ∧
    parsed.expected = body.expectedNodeIds.map Schedules.sortedUnique ∧
    ((∃ texts, (body.selector.map trimmed).filter (· ≠ "") = none ∧ body.nodeIds = some texts ∧
        parsed.mode = .nodes (Schedules.sortedUnique texts)) ∨
      ∃ raw selector, body.selector = some raw ∧ body.nodeIds = none ∧
        parseSelector (trim raw.toList) = .ok selector ∧ parsed.mode = .selector selector) := by
  rw [parseTarget] at h
  dsimp only at h
  split at h
  · cases h
  · cases h
  · next raw hraw hnodes =>
    simp only [Check.bind_eq_ok, Check.throw_bind, Check.mapError_eq_ok, Check.ite_throw_eq_ok,
      Check.pure_eq_ok] at h
    obtain ⟨selector, hselector, -, rfl⟩ := h
    obtain ⟨hmap, -⟩ := Option.filter_eq_some_iff.mp hraw
    obtain ⟨text, htext, rfl⟩ := Option.map_eq_some_iff.mp hmap
    rw [trimmed, String.toList_ofList] at hselector
    exact ⟨rfl, rfl, .inr ⟨text, selector, htext, hnodes, hselector, rfl⟩⟩
  · next ids hnone hnodes =>
    cases h
    exact ⟨rfl, rfl, .inl ⟨ids, hnone, hnodes, rfl⟩⟩

theorem mem_filter_ids {p : InventoryNode → Bool} {id : String} :
    id ∈ (inventory.filter p).map (·.nodeId) ↔ ∃ node ∈ inventory, node.nodeId = id ∧ p node = true := by
  simp only [List.mem_map, List.mem_filter]
  exact ⟨fun ⟨node, ⟨hnode, hp⟩, hid⟩ => ⟨node, hnode, hid, hp⟩,
    fun ⟨node, hnode, hid, hp⟩ => ⟨node, ⟨hnode, hp⟩, hid⟩⟩

/-- A node is found by its id. -/
theorem lookup_byId {id : String} {node : InventoryNode}
    (h : (SortedMap.ofList (inventory.map fun node => (node.nodeId, node))).lookup id = some node) :
    node ∈ inventory ∧ node.nodeId = id := by
  obtain ⟨before, after, heq, -⟩ := SortedMap.lookup_ofList_eq_some_iff.mp h
  have hmem : (id, node) ∈ inventory.map fun node => (node.nodeId, node) := by
    rw [heq]
    exact List.mem_append_right _ List.mem_cons_self
  obtain ⟨other, hother, hpair⟩ := List.mem_map.mp hmem
  cases hpair
  exact ⟨hother, rfl⟩

/-- A blank selector selects nothing. -/
theorem not_selects_of_blank {raw : String} {tags : SortedMap String String}
    (h : trimmed raw = "") : ¬ Selects raw tags := by
  rintro ⟨selector, hselector, hmatch⟩
  have hnil : trim raw.toList = [] := by
    rw [← String.toList_ofList (l := trim raw.toList), ← trimmed, h]
    rfl
  have hempty : parseSelector [] = .ok .empty := by decide
  rw [hnil, hempty] at hselector
  cases hselector
  rcases hmatch with hall | ⟨_, hfilter, -⟩
  · cases hall
  · cases hfilter

/-- A resolution has the nodes that the target matches. -/
theorem mem_resolveParsed (hparsed : parseTarget body = .ok parsed)
    (h : resolveParsed inventory parsed = .ok matched) {id : String} :
    id ∈ matched.nodes.map (·.nodeId) ↔ Targeted inventory body id := by
  obtain ⟨hexcluded, -, hmode⟩ := parseTarget_ok hparsed
  have hout : ∀ {id}, parsed.excluded.contains id = false ↔ ¬ Named body.excludeNodeIds id := by
    intro id
    rw [← Bool.not_eq_true, List.contains_iff_mem, hexcluded, mem_sortedUnique]
  simp only [resolveParsed, Check.bind_eq_ok, Check.pure_eq_ok] at h
  obtain ⟨nodes, hnodes, rfl⟩ := h
  rw [mem_ordered]
  rcases hmode with ⟨texts, hblank, hids, hmode⟩ | ⟨raw, selector, hraw, hids, hselector, hmode⟩
  · rw [matchedNodes, hmode] at hnodes
    dsimp only at hnodes
    split at hnodes
    · cases hnodes
    · next hknown =>
      cases hnodes
      rw [not_not, List.filter_eq_nil_iff] at hknown
      rw [List.mem_map]
      constructor
      · rintro ⟨node, hnode, rfl⟩
        obtain ⟨id, hid, hlookup⟩ := List.mem_filterMap.mp hnode
        rw [Option.ite_none_left_eq_some, Bool.not_eq_true] at hlookup
        obtain ⟨hinventory, rfl⟩ := lookup_byId hlookup.2
        exact ⟨⟨node, hinventory, rfl, .inl ⟨texts, hids, mem_sortedUnique.mp hid⟩⟩,
          hout.mp hlookup.1⟩
      · rintro ⟨⟨node, hnode, rfl, hpicked⟩, hnot⟩
        have hnamed : Named texts node.nodeId := by
          rcases hpicked with ⟨other, hother, hnamed⟩ | ⟨raw, hraw, hselects⟩
          · cases hids.symm.trans hother
            exact hnamed
          · rw [hraw, Option.map_some, Option.filter_eq_none_iff] at hblank
            exact absurd hselects (not_selects_of_blank (by simpa using hblank))
        have hid := mem_sortedUnique.mpr hnamed
        have hsome := hknown _ hid
        obtain ⟨found, hfound⟩ := Option.ne_none_iff_exists'.mp (by simpa using hsome)
        refine ⟨found, List.mem_filterMap.mpr ⟨_, hid, ?_⟩, (lookup_byId hfound).2⟩
        rw [hout.mpr hnot, if_neg Bool.false_ne_true, hfound]
  · have hnonames : ∀ {texts}, body.nodeIds ≠ some texts := by simp [hids]
    rw [matchedNodes, hmode] at hnodes
    cases selector with
    | empty => cases hnodes
    | all =>
      cases hnodes
      rw [mem_filter_ids]
      constructor
      · rintro ⟨node, hnode, rfl, hkept⟩
        exact ⟨⟨node, hnode, rfl, .inr ⟨raw, hraw, .all, hselector, .inl rfl⟩⟩,
          hout.mp (by simpa using hkept)⟩
      · rintro ⟨⟨node, hnode, rfl, -⟩, hnot⟩
        exact ⟨node, hnode, rfl, by simpa using hout.mpr hnot⟩
    | filter selector =>
      cases hnodes
      rw [mem_filter_ids]
      constructor
      · rintro ⟨node, hnode, rfl, hkept⟩
        rw [Bool.and_eq_true, Bool.not_eq_true'] at hkept
        exact ⟨⟨node, hnode, rfl, .inr ⟨raw, hraw, _, hselector, .inr ⟨selector, rfl, hkept.2⟩⟩⟩,
          hout.mp hkept.1⟩
      · rintro ⟨⟨node, hnode, rfl, hpicked⟩, hnot⟩
        refine ⟨node, hnode, rfl, ?_⟩
        rw [Bool.and_eq_true, Bool.not_eq_true']
        refine ⟨hout.mpr hnot, ?_⟩
        rcases hpicked with ⟨_, hother, -⟩ | ⟨other, hother, parsed, hparse, hmatch⟩
        · exact absurd hother hnonames
        · cases hraw.symm.trans hother
          cases hselector.symm.trans hparse
          rcases hmatch with hall | ⟨_, hfilter, hmatch⟩
          · cases hall
          · cases hfilter
            exact hmatch

/-- A resolution has only known nodes. -/
theorem known_of_resolveParsed (h : resolveParsed inventory parsed = .ok matched) :
    ∀ node ∈ matched.nodes, node ∈ inventory := by
  simp only [resolveParsed, Check.bind_eq_ok, Check.pure_eq_ok] at h
  obtain ⟨nodes, hnodes, rfl⟩ := h
  refine fun node hnode => ?_
  have hmatched := mem_of_mem_ordered hnode
  rw [matchedNodes] at hnodes
  split at hnodes
  · cases hnodes
    exact (List.mem_filter.mp hmatched).1
  · cases hnodes
    exact (List.mem_filter.mp hmatched).1
  · cases hnodes
  · dsimp only at hnodes
    split at hnodes
    · cases hnodes
    · cases hnodes
      obtain ⟨id, -, hlookup⟩ := List.mem_filterMap.mp hmatched
      rw [Option.ite_none_left_eq_some] at hlookup
      exact (lookup_byId hlookup.2).1

end

end Novbot.Targets
