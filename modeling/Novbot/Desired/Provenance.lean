import Novbot.Desired.Bundles

/-!
# What a bundle shows was written together

What the rows of a bundle hold is what one change wrote, with all its items, and the bundles of the
migration stay as they are.  A response shows the items of one change as well, or none at all: when
the bundle was deleted between the two statements, or when a request replaced it under another
spelling of its id, because the items are looked up by the exact text.
-/

namespace Novbot.Desired.Bundles

open Concurrent
open Installs (BundleItem)

variable {collation : Collation} {id : String} {content : Content} {stored after : Stored}
  {changes : List Change}

/-! ## What statements do -/

@[simp] theorem same_iff {a b : String} :
    collation.same a b = true ↔ collation.key a = collation.key b := beq_iff_eq

theorem insertItem_ok {item : BundleItem} (h : insertItem collation id stored item = some after) :
    after = { stored with items := stored.items ++ [.of id item] } ∧
      ∃ row ∈ stored.bundles, collation.key row.id = collation.key id := by
  rw [insertItem] at h
  split at h
  · next hfits =>
    cases h
    obtain ⟨row, hrow, hkey⟩ := List.any_eq_true.mp (Bool.and_eq_true_iff.mp hfits).1
    exact ⟨rfl, row, hrow, same_iff.mp hkey⟩
  · cases h

theorem insertItems_ok {items : List BundleItem} (h : insertItems collation id items stored = some after) :
    after = { stored with items := stored.items ++ items.map (.of id) } ∧
      (items ≠ [] → ∃ row ∈ stored.bundles, collation.key row.id = collation.key id) := by
  induction items generalizing stored with
  | nil =>
    cases h
    rw [List.map_nil, List.append_nil]
    exact ⟨rfl, fun hne => absurd rfl hne⟩
  | cons item items ih =>
    rw [insertItems, List.foldlM_cons] at h
    obtain ⟨mid, hmid, hrest⟩ := Option.bind_eq_some_iff.mp h
    obtain ⟨rfl, hparent⟩ := insertItem_ok hmid
    obtain ⟨rfl, -⟩ := ih hrest
    refine ⟨?_, fun _ => hparent⟩
    rw [List.map_cons, List.append_assoc]
    rfl

theorem insertBundle_ok (h : insertBundle collation id content stored = some after) :
    after = { stored with
      bundles := stored.bundles ++ [⟨id, content.name, content.description, false⟩] } ∧
      ∀ row ∈ stored.bundles, collation.key row.id ≠ collation.key id := by
  rw [insertBundle] at h
  split at h
  · cases h
  · next hfresh =>
    cases h
    exact ⟨rfl, fun row hrow hkey => hfresh (List.any_eq_true.mpr ⟨row, hrow, same_iff.mpr hkey⟩)⟩

@[simp] theorem update_id (row : BundleRow) : (row.update collation id content).id = row.id := by
  rw [BundleRow.update]
  split <;> rfl

@[simp] theorem update_builtin (row : BundleRow) :
    (row.update collation id content).builtin = row.builtin := by
  rw [BundleRow.update]
  split <;> rfl

theorem update_other {row : BundleRow} (h : collation.key row.id ≠ collation.key id) :
    row.update collation id content = row := by
  rw [BundleRow.update, if_neg]
  intro hgoes
  exact h (same_iff.mp (Bool.and_eq_true_iff.mp hgoes).1)

theorem goes_iff {row : BundleRow} :
    row.goes collation id = true ↔ collation.key row.id = collation.key id ∧ row.builtin = false := by
  simp [BundleRow.goes]

/-! ## The tables -/

/-- The items of the bundle with this key. -/
def Stored.itemsOf (collation : Collation) (stored : Stored) (id : String) : List ItemRow :=
  stored.items.filter fun item => collation.same item.bundleId id

/-- A change wrote the row and its items. -/
def Written (collation : Collation) (stored : Stored) (changes : List Change) (row : BundleRow) : Prop :=
  ∃ id content, Change.wrote id content ∈ changes ∧ collation.key id = collation.key row.id ∧
    row.name = content.name ∧ row.description = content.description ∧
    stored.itemsOf collation row.id = content.items.map (.of id)

/-- The migration is the only one to write its bundles. -/
def Change.Keeps (collation : Collation) : Change → Prop
  | .wrote id content => ∀ seed ∈ seeds, collation.key id = collation.key seed.1 → (id, content) = seed
  | .deleted id => ∀ seed ∈ seeds, collation.key id ≠ collation.key seed.1

structure Integrity (collation : Collation) (stored : Stored) (changes : List Change) : Prop where
  keys : (stored.bundles.map fun row => collation.key row.id).Nodup
  owned : ∀ item ∈ stored.items, ∃ row ∈ stored.bundles,
    collation.key row.id = collation.key item.bundleId
  written : ∀ row ∈ stored.bundles, Written collation stored changes row
  seeded : ∀ seed ∈ seeds, seededRow seed ∈ stored.bundles
  builtin : ∀ row ∈ stored.bundles, row.builtin = true → ∃ seed ∈ seeds, row = seededRow seed
  keeps : ∀ change ∈ changes, change.Keeps collation

theorem Integrity.unique (h : Integrity collation stored changes) {a b : BundleRow}
    (ha : a ∈ stored.bundles) (hb : b ∈ stored.bundles)
    (hkey : collation.key a.id = collation.key b.id) : a = b :=
  List.inj_on_of_nodup_map h.keys ha hb hkey

/-- A row with the key of a seed is the row of the seed. -/
theorem Integrity.of_seed (h : Integrity collation stored changes) {row : BundleRow}
    (hrow : row ∈ stored.bundles) {seed : String × Content} (hseed : seed ∈ seeds)
    (hkey : collation.key row.id = collation.key seed.1) : row = seededRow seed :=
  h.unique hrow (h.seeded seed hseed) hkey

theorem Written.later {row : BundleRow} (h : Written collation stored changes row)
    (hitems : after.itemsOf collation row.id = stored.itemsOf collation row.id) (change : Change) :
    Written collation after (changes ++ [change]) row := by
  obtain ⟨id, content, hwrote, hkey, hname, hdescription, hof⟩ := h
  exact ⟨id, content, List.mem_append_left _ hwrote, hkey, hname, hdescription, hitems.trans hof⟩

theorem itemsOf_append {collation : Collation} {bundles : List BundleRow} {items later : List ItemRow}
    {id : String} :
    Stored.itemsOf collation ⟨bundles, items ++ later⟩ id =
      Stored.itemsOf collation ⟨bundles, items⟩ id ++ Stored.itemsOf collation ⟨bundles, later⟩ id :=
  List.filter_append ..

theorem itemsOf_of {bundles : List BundleRow} {items : List BundleItem} {other : String}
    (h : collation.key id = collation.key other) :
    Stored.itemsOf collation ⟨bundles, items.map (.of id)⟩ other = items.map (.of id) := by
  refine List.filter_eq_self.mpr fun item hitem => ?_
  obtain ⟨item, -, rfl⟩ := List.mem_map.mp hitem
  exact same_iff.mpr h

theorem itemsOf_other {bundles : List BundleRow} {items : List BundleItem} {other : String}
    (h : collation.key id ≠ collation.key other) :
    Stored.itemsOf collation ⟨bundles, items.map (.of id)⟩ other = [] := by
  refine List.filter_eq_nil_iff.mpr fun item hitem hsame => ?_
  obtain ⟨item, -, rfl⟩ := List.mem_map.mp hitem
  exact h (same_iff.mp hsame)

theorem keeps_append {change : Change} (h : ∀ other ∈ changes, Change.Keeps collation other)
    (hchange : change.Keeps collation) :
    ∀ other ∈ changes ++ [change], Change.Keeps collation other := by
  intro other hother
  rcases List.mem_append.mp hother with hother | hother
  · exact h other hother
  · cases List.mem_singleton.mp hother
    exact hchange

theorem Integrity.create (h : Integrity collation stored changes) {mid : Stored}
    (hinsert : insertBundle collation id content stored = some mid)
    (hcreated : created collation id content mid = some after) :
    Integrity collation after (changes ++ [.wrote id content]) := by
  obtain ⟨rfl, hfresh⟩ := insertBundle_ok hinsert
  obtain ⟨rfl, -⟩ := insertItems_ok hcreated
  refine ⟨?_, ?_, ?_, ?_, ?_, keeps_append h.keeps ?_⟩
  · rw [List.map_append]
    refine List.nodup_append'.mpr ⟨h.keys, List.nodup_singleton _, fun key hkey hnew => ?_⟩
    cases List.mem_singleton.mp hnew
    obtain ⟨row, hrow, heq⟩ := List.mem_map.mp hkey
    exact hfresh row hrow heq
  · intro item hitem
    rcases List.mem_append.mp hitem with hitem | hitem
    · obtain ⟨row, hrow, hkey⟩ := h.owned item hitem
      exact ⟨row, List.mem_append_left _ hrow, hkey⟩
    · obtain ⟨item, -, rfl⟩ := List.mem_map.mp hitem
      exact ⟨_, List.mem_append_right _ (List.mem_singleton.mpr rfl), rfl⟩
  · intro row hrow
    rcases List.mem_append.mp hrow with hrow | hrow
    · refine (h.written row hrow).later ?_ _
      rw [itemsOf_append, itemsOf_other fun hkey => hfresh row hrow hkey.symm, List.append_nil]
      rfl
    · cases List.mem_singleton.mp hrow
      refine ⟨id, content, List.mem_append_right _ (List.mem_singleton.mpr rfl), rfl, rfl, rfl, ?_⟩
      rw [itemsOf_append, itemsOf_of rfl]
      have hnone : Stored.itemsOf collation
          ⟨stored.bundles ++ [⟨id, content.name, content.description, false⟩], stored.items⟩ id = [] := by
        refine List.filter_eq_nil_iff.mpr fun item hitem hsame => ?_
        obtain ⟨row, hrow, hkey⟩ := h.owned item hitem
        exact hfresh row hrow (hkey.trans (same_iff.mp hsame))
      rw [hnone, List.nil_append]
  · exact fun seed hseed => List.mem_append_left _ (h.seeded seed hseed)
  · intro row hrow hbuiltin
    rcases List.mem_append.mp hrow with hrow | hrow
    · exact h.builtin row hrow hbuiltin
    · cases List.mem_singleton.mp hrow
      cases hbuiltin
  · exact fun seed hseed hkey => absurd hkey.symm (hfresh _ (h.seeded seed hseed))

/-- The bundle that is replaced is not one of the migration. -/
theorem Integrity.replace (h : Integrity collation stored changes)
    (hreplaced : replaced collation id content stored = some after)
    (hother : ∀ seed ∈ seeds, collation.key id ≠ collation.key seed.1) :
    Integrity collation after (changes ++ [.wrote id content]) := by
  obtain ⟨rfl, hparent⟩ := insertItems_ok hreplaced
  have hkept : ∀ row ∈ stored.bundles, collation.key row.id = collation.key id → row.builtin = false := by
    intro row hrow hkey
    by_contra hbuiltin
    obtain ⟨seed, hseed, rfl⟩ := h.builtin row hrow (Bool.eq_true_of_not_eq_false hbuiltin)
    exact hother seed hseed hkey.symm
  have hmap : ∀ row ∈ stored.bundles,
      row.update collation id content ∈ (updateBundle collation id content stored).bundles :=
    fun row hrow => List.mem_map_of_mem hrow
  refine ⟨?_, ?_, ?_, ?_, ?_, keeps_append h.keeps ?_⟩
  · have hsame : ((updateBundle collation id content stored).bundles.map fun row =>
        collation.key row.id) = stored.bundles.map fun row => collation.key row.id := by
      rw [updateBundle, List.map_map]
      exact List.map_congr_left fun row _ => congrArg collation.key (update_id row)
    exact hsame ▸ h.keys
  · intro item hitem
    rcases List.mem_append.mp hitem with hitem | hitem
    · obtain ⟨row, hrow, hkey⟩ := h.owned item (List.mem_of_mem_filter hitem)
      exact ⟨_, hmap row hrow, (congrArg collation.key (update_id row)).trans hkey⟩
    · obtain ⟨item, -, rfl⟩ := List.mem_map.mp hitem
      exact hparent content.nonempty
  · intro updated hupdated
    obtain ⟨row, hrow, rfl⟩ := List.mem_map.mp hupdated
    by_cases hkey : collation.key row.id = collation.key id
    · refine ⟨id, content, List.mem_append_right _ (List.mem_singleton.mpr rfl), ?_, ?_⟩
      · rw [update_id, hkey]
      · have hgoes : (collation.same row.id id && !row.builtin) = true := by
          rw [same_iff.mpr hkey, hkept row hrow hkey]
          rfl
        rw [update_id, BundleRow.update, if_pos hgoes]
        refine ⟨rfl, rfl, ?_⟩
        rw [itemsOf_append, itemsOf_of hkey.symm]
        have hnone : Stored.itemsOf collation
            (deleteItems collation id (updateBundle collation id content stored)) row.id = [] := by
          refine List.filter_eq_nil_iff.mpr fun item hitem hsame => ?_
          have hleft := (List.mem_filter.mp hitem).2
          rw [same_iff.mpr ((same_iff.mp hsame).trans hkey)] at hleft
          cases hleft
        rw [hnone, List.nil_append]
    · rw [update_other hkey]
      refine (h.written row hrow).later ?_ _
      rw [itemsOf_append, itemsOf_other fun heq => hkey heq.symm, List.append_nil]
      refine List.filter_filter.trans (List.filter_congr fun item _ => ?_)
      cases hsame : collation.same item.bundleId row.id with
      | false => rfl
      | true =>
        have hne : collation.same item.bundleId id = false :=
          Bool.eq_false_iff.mpr fun heq => hkey ((same_iff.mp hsame).symm.trans (same_iff.mp heq))
        rw [hne]
        rfl
  · intro seed hseed
    have hsame : (seededRow seed).update collation id content = seededRow seed :=
      update_other fun heq => hother seed hseed heq.symm
    exact hsame ▸ hmap _ (h.seeded seed hseed)
  · intro updated hupdated hbuiltin
    obtain ⟨row, hrow, rfl⟩ := List.mem_map.mp hupdated
    rw [update_builtin] at hbuiltin
    obtain ⟨seed, hseed, rfl⟩ := h.builtin row hrow hbuiltin
    exact ⟨seed, hseed, update_other fun heq => hother seed hseed heq.symm⟩
  · exact fun seed hseed hkey => absurd hkey (hother seed hseed)

/-- A row goes, so the bundle is not one of the migration. -/
theorem Integrity.delete (h : Integrity collation stored changes) {gone : BundleRow}
    (hgone : gone ∈ stored.bundles) (hgoes : gone.goes collation id = true) :
    Integrity collation (deleteBundle collation id stored) (changes ++ [.deleted id]) := by
  obtain ⟨hgoneKey, hgoneOwn⟩ := goes_iff.mp hgoes
  have hstays : ∀ row ∈ stored.bundles, row.goes collation id = false →
      row ∈ (deleteBundle collation id stored).bundles := by
    intro row hrow hstay
    refine List.mem_filter.mpr ⟨hrow, ?_⟩
    rw [hstay]
    rfl
  refine ⟨h.keys.sublist (List.filter_sublist.map _), ?_, ?_, ?_, ?_, keeps_append h.keeps ?_⟩
  · intro item hitem
    obtain ⟨hitem, hleft⟩ := List.mem_filter.mp hitem
    obtain ⟨row, hrow, hkey⟩ := h.owned item hitem
    refine ⟨row, hstays row hrow ?_, hkey⟩
    by_contra hrowGoes
    rw [List.any_eq_true.mpr ⟨row, hrow, Bool.and_eq_true_iff.mpr
      ⟨Bool.eq_true_of_not_eq_false hrowGoes, same_iff.mpr hkey.symm⟩⟩] at hleft
    cases hleft
  · intro row hrow
    obtain ⟨hrow, hstay⟩ := List.mem_filter.mp hrow
    refine (h.written row hrow).later ?_ _
    refine List.filter_filter.trans (List.filter_congr fun item _ => ?_)
    cases hsame : collation.same item.bundleId row.id with
    | false => rfl
    | true =>
      rw [Bool.true_and]
      refine Bool.not_eq_true' _ ▸ Bool.eq_false_iff.mpr fun hany => ?_
      obtain ⟨other, hotherRow, hother⟩ := List.any_eq_true.mp hany
      obtain ⟨hotherGoes, hotherSame⟩ := Bool.and_eq_true_iff.mp hother
      cases h.unique hotherRow hrow ((same_iff.mp hotherSame).symm.trans (same_iff.mp hsame))
      rw [hotherGoes] at hstay
      cases hstay
  · intro seed hseed
    refine hstays _ (h.seeded seed hseed) (Bool.eq_false_iff.mpr fun hseedGoes => ?_)
    cases (goes_iff.mp hseedGoes).2
  · exact fun row hrow => h.builtin row (List.mem_of_mem_filter hrow)
  · intro seed hseed hkey
    rw [h.of_seed hgone hseed (hgoneKey.trans hkey)] at hgoneOwn
    cases hgoneOwn

/-! ## What is read -/

/-- A change wrote what the row says.  Its bundle is still there, unless it was deleted. -/
structure Seen (collation : Collation) (stored : Stored) (changes : List Change) (row : BundleRow) :
    Prop where
  written : ∃ id content, Change.wrote id content ∈ changes ∧ collation.key id = collation.key row.id ∧
    row.name = content.name ∧ row.description = content.description
  kept : (∃ found ∈ stored.bundles, collation.key found.id = collation.key row.id) ∨
    ∃ id, Change.deleted id ∈ changes ∧ collation.key id = collation.key row.id
  seed : row.builtin = true → ∃ seed ∈ seeds, row = seededRow seed
  other : row.builtin = false → ∀ seed ∈ seeds, collation.key row.id ≠ collation.key seed.1

theorem Integrity.seen (h : Integrity collation stored changes) {row : BundleRow}
    (hrow : row ∈ stored.bundles) : Seen collation stored changes row := by
  refine ⟨?_, .inl ⟨row, hrow, rfl⟩, h.builtin row hrow, fun hother seed hseed hkey => ?_⟩
  · obtain ⟨id, content, hwrote, hkey, hname, hdescription, -⟩ := h.written row hrow
    exact ⟨id, content, hwrote, hkey, hname, hdescription⟩
  · rw [h.of_seed hrow hseed hkey] at hother
    cases hother

theorem Seen.later {row : BundleRow} (h : Seen collation stored changes row) {change : Change}
    (hkept : ∀ found ∈ stored.bundles,
      (∃ left ∈ after.bundles, collation.key left.id = collation.key found.id) ∨
        ∃ id, change = .deleted id ∧ collation.key id = collation.key found.id) :
    Seen collation after (changes ++ [change]) row := by
  refine ⟨?_, ?_, h.seed, h.other⟩
  · obtain ⟨id, content, hwrote, hrest⟩ := h.written
    exact ⟨id, content, List.mem_append_left _ hwrote, hrest⟩
  · rcases h.kept with ⟨found, hfound, hkey⟩ | ⟨id, hdeleted, hkey⟩
    · rcases hkept found hfound with ⟨left, hleft, hsame⟩ | ⟨id, rfl, hsame⟩
      · exact .inl ⟨left, hleft, hsame.trans hkey⟩
      · exact .inr ⟨id, List.mem_append_right _ (List.mem_singleton.mpr rfl), hsame.trans hkey⟩
    · exact .inr ⟨id, List.mem_append_left _ hdeleted, hkey⟩

instance : Std.Total (ItemRow.upTo collation) where
  total a b := by
    rcases lt_trichotomy (collation.key a.bundleId) (collation.key b.bundleId) with hlt | heq | hlt
    · exact .inl (.inl hlt)
    · rcases le_total (collation.key a.skillName) (collation.key b.skillName) with hle | hle
      · exact .inl (.inr ⟨heq, hle⟩)
      · exact .inr (.inr ⟨heq.symm, hle⟩)
    · exact .inr (.inl hlt)

instance : IsTrans ItemRow (ItemRow.upTo collation) where
  trans a b c hab hbc := by
    rcases hab with hab | ⟨hab, hnames⟩
    · rcases hbc with hbc | ⟨hbc, -⟩
      · exact .inl (hab.trans hbc)
      · exact .inl (hbc ▸ hab)
    · rcases hbc with hbc | ⟨hbc, hnames'⟩
      · exact .inl (hab ▸ hbc)
      · exact .inr ⟨hab.trans hbc, hnames.trans hnames'⟩

/-- The items that are found under the exact text of the id, in the order of their names. -/
theorem selectItems_sorted (id : Option String) (text : String) :
    (((selectItems collation id stored).filter (·.bundleId == text)).map itemView).Pairwise
      fun a b => collation.key a.skillName ≤ collation.key b.skillName := by
  have hsorted : (selectItems collation id stored).Pairwise (ItemRow.upTo collation) :=
    List.pairwise_insertionSort _ _
  refine List.pairwise_map.mpr ((hsorted.filter _).imp_of_mem fun ha hb hab => ?_)
  have haid := eq_of_beq (List.mem_filter.mp ha).2
  have hbid := eq_of_beq (List.mem_filter.mp hb).2
  rcases hab with hlt | ⟨-, hle⟩
  · rw [haid, hbid] at hlt
    exact absurd hlt (lt_irrefl _)
  · exact hle

theorem selectItems_perm {id : Option String} {text : String}
    (h : ∀ given, id = some given → collation.key text = collation.key given) :
    ((selectItems collation id stored).filter (·.bundleId == text)).Perm
      ((stored.itemsOf collation text).filter (·.bundleId == text)) := by
  refine ((List.perm_insertionSort _ _).filter _).trans (List.Perm.of_eq ?_)
  rw [Stored.itemsOf, List.filter_filter, List.filter_filter]
  refine List.filter_congr fun item _ => ?_
  cases htext : item.bundleId == text with
  | false => rfl
  | true =>
    rw [eq_of_beq htext, same_iff.mpr rfl]
    cases id with
    | none => rfl
    | some given => exact same_iff.mpr (h given rfl)

theorem itemsOf_congr {text : String} (h : collation.key id = collation.key text) :
    stored.itemsOf collation id = stored.itemsOf collation text := by
  refine List.filter_congr fun item _ => ?_
  rw [Collation.same, Collation.same, h]

/-- Why nothing is found under the exact text of an id. -/
def Missing (collation : Collation) (changes : List Change) (text : String) : Prop :=
  (∃ id content, Change.wrote id content ∈ changes ∧ collation.key id = collation.key text ∧ id ≠ text) ∨
    ∃ id, Change.deleted id ∈ changes ∧ collation.key id = collation.key text

/-- The items under the exact text of an id are those of one change, or none. -/
theorem Integrity.under (h : Integrity collation stored changes) {text : String}
    (hkept : (∃ found ∈ stored.bundles, collation.key found.id = collation.key text) ∨
      ∃ id, Change.deleted id ∈ changes ∧ collation.key id = collation.key text) :
    (∃ content, Change.wrote text content ∈ changes ∧
      (stored.itemsOf collation text).filter (·.bundleId == text) = content.items.map (.of text)) ∨
    (stored.itemsOf collation text).filter (·.bundleId == text) = [] ∧ Missing collation changes text := by
  by_cases hfound : ∃ found ∈ stored.bundles, collation.key found.id = collation.key text
  · obtain ⟨found, hfound, hkey⟩ := hfound
    obtain ⟨id, content, hwrote, hid, -, -, hitems⟩ := h.written found hfound
    rw [← itemsOf_congr hkey, hitems]
    by_cases hspelled : id = text
    · subst hspelled
      refine .inl ⟨content, hwrote, List.filter_eq_self.mpr fun item hitem => ?_⟩
      obtain ⟨item, -, rfl⟩ := List.mem_map.mp hitem
      exact beq_self_eq_true _
    · refine .inr ⟨List.filter_eq_nil_iff.mpr fun item hitem htext => ?_,
        .inl ⟨id, content, hwrote, hid.trans hkey, hspelled⟩⟩
      obtain ⟨item, -, rfl⟩ := List.mem_map.mp hitem
      exact hspelled (eq_of_beq htext)
  · refine .inr ⟨List.filter_eq_nil_iff.mpr fun item hitem _ => ?_, .inr (hkept.resolve_left hfound)⟩
    obtain ⟨hitem, hsame⟩ := List.mem_filter.mp hitem
    obtain ⟨row, hrow, hkey⟩ := h.owned item hitem
    exact hfound ⟨row, hrow, hkey.trans (same_iff.mp hsame)⟩

/-- What a response says of a bundle. -/
structure Shown (collation : Collation) (changes : List Change) (view : BundleView) : Prop where
  written : ∃ id content, Change.wrote id content ∈ changes ∧ collation.key id = collation.key view.id ∧
    view.name = content.name ∧ view.description = content.description
  items : (∃ content, Change.wrote view.id content ∈ changes ∧ view.items.Perm content.items) ∨
    view.items = [] ∧ Missing collation changes view.id
  sorted : view.items.Pairwise fun a b => collation.key a.skillName ≤ collation.key b.skillName
  seed : view.builtin = true → ∃ seed ∈ seeds, view.id = seed.1

theorem Missing.later {text : String} (h : Missing collation changes text) (change : Change) :
    Missing collation (changes ++ [change]) text := by
  rcases h with ⟨id, content, hwrote, hrest⟩ | ⟨id, hdeleted, hkey⟩
  · exact .inl ⟨id, content, List.mem_append_left _ hwrote, hrest⟩
  · exact .inr ⟨id, List.mem_append_left _ hdeleted, hkey⟩

theorem Shown.later {view : BundleView} (h : Shown collation changes view) (change : Change) :
    Shown collation (changes ++ [change]) view := by
  refine ⟨?_, ?_, h.sorted, h.seed⟩
  · obtain ⟨id, content, hwrote, hrest⟩ := h.written
    exact ⟨id, content, List.mem_append_left _ hwrote, hrest⟩
  · rcases h.items with ⟨content, hwrote, hperm⟩ | ⟨hnone, hmissing⟩
    · exact .inl ⟨content, List.mem_append_left _ hwrote, hperm⟩
    · exact .inr ⟨hnone, hmissing.later change⟩

theorem itemViews (id : String) (items : List BundleItem) :
    (items.map (ItemRow.of id)).map itemView = items := by
  rw [List.map_map]
  exact List.map_id'' (fun _ => rfl) items

/-- The second statement shows the items of one change under a row that was seen before. -/
theorem Integrity.shown (h : Integrity collation stored changes) {row : BundleRow}
    (hseen : Seen collation stored changes row) {id : Option String}
    (hid : ∀ given, id = some given → collation.key row.id = collation.key given) :
    Shown collation changes (bundleView row (selectItems collation id stored)) := by
  have hperm := (@selectItems_perm collation stored id row.id hid).map itemView
  refine ⟨?_, ?_, selectItems_sorted id row.id, fun hbuiltin => ?_⟩
  · obtain ⟨id, content, hwrote, hkey, hname, hdescription⟩ := hseen.written
    refine ⟨id, content, hwrote, hkey, hname, ?_⟩
    rw [bundleView, hdescription, content.described]
  · rcases h.under hseen.kept with ⟨content, hwrote, hitems⟩ | ⟨hnone, hmissing⟩
    · rw [hitems, itemViews] at hperm
      exact .inl ⟨content, hwrote, hperm⟩
    · rw [hnone] at hperm
      exact .inr ⟨hperm.eq_nil, hmissing⟩
  · obtain ⟨seed, hseed, rfl⟩ := hseen.seed hbuiltin
    exact ⟨seed, hseed, rfl⟩

theorem mem_views {rows : List BundleRow} {items : List ItemRow} {view : BundleView}
    (h : view ∈ views rows items) : ∃ row ∈ rows, view.builtin = row.builtin ∧
      ((rows.map (·.id)).Nodup → view = bundleView row items) := by
  induction rows generalizing items with
  | nil => cases h
  | cons first rows ih =>
    rcases List.mem_cons.mp h with rfl | h
    · exact ⟨first, List.mem_cons_self, rfl, fun _ => rfl⟩
    · obtain ⟨row, hrow, hbuiltin, hview⟩ := ih h
      refine ⟨row, .tail _ hrow, hbuiltin, fun hdistinct => ?_⟩
      obtain ⟨hfresh, hdistinct⟩ := List.nodup_cons.mp hdistinct
      rw [hview hdistinct, bundleView, bundleView, List.filter_filter]
      congr 2
      refine List.filter_congr fun item _ => ?_
      cases hrowItem : item.bundleId == row.id with
      | false => rfl
      | true =>
        rw [eq_of_beq hrowItem, Bool.true_and, bne_iff_ne]
        exact fun heq => hfresh (List.mem_map.mpr ⟨row, hrow, heq⟩)

/-! ## What a thread may do -/

/-- The second statement reads the items of what was found, a bundle that is replaced was found
and is not builtin, and a response shows what was read last. -/
def mayPerform (collation : Collation) (op : Op) (loc : Loc) : Prop :=
  match op with
  | .items id => ∀ row ∈ loc.rows, ∀ given, id = some given →
      collation.key row.id = collation.key given
  | .replace id _ => ∃ row ∈ loc.rows, collation.key row.id = collation.key id ∧ row.builtin = false
  | .respond answer => ∀ views, answer = .ok views → ∀ view ∈ views, view ∈ loc.views
  | _ => True

/-- The first statement finds bundles with the key of the id. -/
def mayReply (collation : Collation) (op : Op) (reply : op.Reply) : Prop :=
  match op, reply with
  | .rows id, .ok rows => ∀ row ∈ rows, ∀ given, id = some given →
      collation.key row.id = collation.key given
  | _, _ => True

def terms (collation : Collation) : Machine.Terms Op.Reply Nat Loc where
  pre _ := mayPerform collation
  gives _ op _ := mayReply collation op
  rest _ _ := True

variable {α β : Type}

abbrev meets (collation : Collation) (prog : Prog α) (post : α → Loc → Prop) (loc : Loc) : Prop :=
  prog.Meets ⟨mayPerform collation, fun op _ => mayReply collation op, note⟩ post loc

/-- A result that is not an error meets the condition. -/
structure TriedMeets (collation : Collation) (tried : Tried α) (post : α → Loc → Prop) (loc : Loc) :
    Prop where
  run : meets collation tried.run (fun result loc => ∀ a, result = .ok a → post a loc) loc

theorem TriedMeets.mono {tried : Tried α} {post post' : α → Loc → Prop} {loc : Loc}
    (h : TriedMeets collation tried post loc) (himp : ∀ a loc, post a loc → post' a loc) :
    TriedMeets collation tried post' loc :=
  ⟨Program.Meets.mono h.run fun _ loc hpost a hok => himp a loc (hpost a hok)⟩

theorem TriedMeets.bind {tried : Tried α} {next : α → Tried β} {mid : α → Loc → Prop}
    {post : β → Loc → Prop} {loc : Loc} (h : TriedMeets collation tried mid loc)
    (hnext : ∀ a loc, mid a loc → TriedMeets collation (next a) post loc) :
    TriedMeets collation (tried >>= next) post loc := by
  constructor
  rw [ExceptT.run_bind]
  refine Program.Meets.bind h.run fun result loc hresult => ?_
  cases result with
  | ok a => exact (hnext a loc (hresult a rfl)).run
  | error err => exact fun b hb => nomatch hb

theorem TriedMeets.pure {a : α} {post : α → Loc → Prop} {loc : Loc} (h : post a loc) :
    TriedMeets collation (Pure.pure a) post loc := by
  refine ⟨fun b hb => ?_⟩
  cases hb
  exact h

theorem TriedMeets.throw {err : BundleError} {post : α → Loc → Prop} {loc : Loc} :
    TriedMeets collation (MonadExcept.throw err : Tried α) post loc :=
  ⟨fun _ hb => nomatch hb⟩

theorem TriedMeets.lift {result : Except BundleError α} {loc : Loc} :
    TriedMeets collation (liftExcept result : Tried α) (fun _ after => after = loc) loc := by
  cases result with
  | ok a => exact TriedMeets.pure rfl
  | error err => exact TriedMeets.throw

theorem loadBundles_meets (id : Option String) (loc : Loc) :
    TriedMeets collation (loadBundles id) (fun views loc => ∀ view ∈ views, view ∈ loc.views ∧
      ∃ row ∈ loc.rows, (∀ given, id = some given → collation.key row.id = collation.key given) ∧
        view.builtin = row.builtin) loc := by
  have hrows : TriedMeets collation (ExceptT.mk (call (.rows id))) (fun rows loc => loc.rows = rows ∧
      ∀ row ∈ rows, ∀ given, id = some given → collation.key row.id = collation.key given) loc := by
    refine ⟨⟨trivial, fun reply hreply rows hok => ?_⟩⟩
    cases hok
    exact ⟨rfl, hreply⟩
  refine hrows.bind fun rows loc hread => ?_
  obtain ⟨hread, hid⟩ := hread
  have hitems : TriedMeets collation (ExceptT.mk (call (.items id))) (fun items after =>
      after.rows = rows ∧ after.views = views rows items) loc := by
    refine ⟨⟨fun row hrow => hid row (hread ▸ hrow), fun reply _ items hok => ?_⟩⟩
    cases hok
    exact ⟨hread, congrArg (views · items) hread⟩
  refine hitems.bind fun items after hafter => TriedMeets.pure fun view hview => ?_
  obtain ⟨hsame, hviews⟩ := hafter
  obtain ⟨row, hrow, hbuiltin, -⟩ := mem_views hview
  exact ⟨hviews ▸ hview, row, hsame ▸ hrow, hid row hrow, hbuiltin⟩

/-- The view is of the bundle that was found. -/
def Found (collation : Collation) (id : String) (view : BundleView) (loc : Loc) : Prop :=
  view ∈ loc.views ∧ ∃ row ∈ loc.rows, collation.key row.id = collation.key id ∧
    view.builtin = row.builtin

theorem getBundle_meets (id : String) (loc : Loc) :
    TriedMeets collation (getBundle id) (Found collation id) loc := by
  refine (loadBundles_meets (some id) loc).bind fun views loc hviews => ?_
  cases views with
  | nil => exact TriedMeets.throw
  | cons view rest =>
    obtain ⟨hview, row, hrow, hkey, hbuiltin⟩ := hviews view List.mem_cons_self
    exact TriedMeets.pure ⟨hview, row, hrow, hkey id rfl, hbuiltin⟩

theorem createBundle_meets (body : BundleCreate) (loc : Loc) :
    TriedMeets collation (createBundle body) (fun view loc => view ∈ loc.views) loc := by
  rw [createBundle]
  split
  · exact TriedMeets.throw.bind fun _ _ h => h
  · refine TriedMeets.lift.bind fun content loc _ => ?_
    have hcreate : TriedMeets collation (ExceptT.mk (call (.create (trimmed body.id) content)))
        (fun _ _ => True) loc := ⟨⟨trivial, fun _ _ _ _ => trivial⟩⟩
    exact hcreate.bind fun _ loc _ => (getBundle_meets _ loc).mono fun _ _ h => h.1

theorem replaceBundle_meets (id : String) (body : BundleReplace) (loc : Loc) :
    TriedMeets collation (replaceBundle id body) (fun view loc => view ∈ loc.views) loc := by
  refine TriedMeets.lift.bind fun content loc _ =>
    (getBundle_meets id loc).bind fun existing loc hfound => ?_
  split
  · exact TriedMeets.throw.bind fun _ _ h => h
  · next hown =>
    obtain ⟨-, row, hrow, hkey, hbuiltin⟩ := hfound
    have hreplace : TriedMeets collation (ExceptT.mk (call (.replace id content))) (fun _ _ => True) loc :=
      ⟨⟨⟨row, hrow, hkey, hbuiltin ▸ Bool.eq_false_of_not_eq_true hown⟩, fun _ _ _ _ => trivial⟩⟩
    exact hreplace.bind fun _ loc _ => (getBundle_meets _ loc).mono fun _ _ h => h.1

/-- The response shows one view. -/
theorem TriedMeets.one {tried : Tried BundleView} {loc : Loc}
    (h : TriedMeets collation tried (fun view loc => view ∈ loc.views) loc) :
    TriedMeets collation (tried >>= fun view => Pure.pure [view])
      (fun views loc => ∀ view ∈ views, view ∈ loc.views) loc :=
  h.bind fun _ _ hview => TriedMeets.pure fun _ hother => List.mem_singleton.mp hother ▸ hview

theorem deleteBundleRequest_meets (id : String) (loc : Loc) :
    TriedMeets collation (deleteBundleRequest id) (fun _ _ => True) loc := by
  refine (getBundle_meets id loc).bind fun existing loc _ => ?_
  split
  · exact TriedMeets.throw.bind fun _ _ h => h
  · have hstatement : TriedMeets collation (ExceptT.mk (call (.delete id))) (fun _ _ => True) loc :=
      ⟨⟨trivial, fun _ _ _ _ => trivial⟩⟩
    refine hstatement.bind fun affected loc _ => ?_
    split
    · exact TriedMeets.throw
    · exact TriedMeets.pure trivial

theorem request_meets (request : Request) (loc : Loc) :
    TriedMeets collation request.run (fun views loc => ∀ view ∈ views, view ∈ loc.views) loc := by
  cases request with
  | list =>
    exact (loadBundles_meets none loc).mono fun _ _ h view hview => (h view hview).1
  | get id =>
    have hview : TriedMeets collation (getBundle id) (fun view loc => view ∈ loc.views) loc :=
      (getBundle_meets id loc).mono fun _ _ h => h.1
    exact hview.one
  | create body =>
    exact (createBundle_meets body loc).one
  | replace id body =>
    exact (replaceBundle_meets id body loc).one
  | delete id =>
    refine (deleteBundleRequest_meets id loc).bind fun _ loc _ => ?_
    exact TriedMeets.pure fun view hview => absurd hview List.not_mem_nil

theorem prog_meets (request : Request) (loc : Loc) :
    meets collation request.prog (fun _ _ => True) loc := by
  refine Program.Meets.bind (request_meets request loc).run fun answer loc hanswer => ?_
  exact ⟨hanswer, fun _ _ => trivial⟩

theorem center_obeys : (center collation).Obeys (terms collation) where
  exec t locs op fails state reply state' _ h := by
    cases op with
    | rows id =>
      cases fails with
      | true =>
        cases h
        trivial
      | false =>
        cases h
        intro row hrow given hgiven
        have hfound := (List.mem_filter.mp ((List.mem_insertionSort _).mp hrow)).2
        rw [hgiven] at hfound
        exact same_iff.mp hfound
    | items id => trivial
    | create id content => trivial
    | replace id content => trivial
    | delete id => trivial
    | respond answer => trivial
  fire e sys sys' hsound h := by
    cases e with
    | start t request =>
      rw [show (center collation).fire = fire from rfl, fire] at h
      split at h
      · cases h
        refine hsound.update ?_ _
        exact prog_meets request .fresh
      · cases h
    | abort t =>
      cases h
      refine hsound.update ?_ _
      trivial

/-! ## Runs -/

structure ThreadInv (collation : Collation) (stored : Stored) (changes : List Change) (loc : Loc) :
    Prop where
  rows : ∀ row ∈ loc.rows, Seen collation stored changes row
  distinct : (loc.rows.map (·.id)).Nodup
  views : ∀ view ∈ loc.views, Shown collation changes view

theorem ThreadInv.fresh : ThreadInv collation stored changes .fresh :=
  ⟨fun _ hrow => absurd hrow List.not_mem_nil, List.nodup_nil,
    fun _ hview => absurd hview List.not_mem_nil⟩

structure Invariant (collation : Collation) (state : Center) (locs : Nat → Loc) : Prop where
  integrity : Integrity collation state.stored state.changes
  threads : ∀ t, ThreadInv collation state.stored state.changes (locs t)
  answers : ∀ views, .ok views ∈ state.answers → ∀ view ∈ views, Shown collation state.changes view

variable {state : Center} {locs : Nat → Loc} {t : Nat}

theorem Invariant.thread (h : Invariant collation state locs) {loc : Loc}
    (hloc : ThreadInv collation state.stored state.changes loc) :
    Invariant collation state (Function.update locs t loc) := by
  refine ⟨h.integrity, fun other => ?_, h.answers⟩
  by_cases hother : other = t
  · subst hother
    rw [Function.update_self]
    exact hloc
  · rw [Function.update_of_ne hother]
    exact h.threads other

/-- A change of the tables, which keeps every bundle that it does not delete. -/
theorem Invariant.change (h : Invariant collation state locs) {change : Change}
    (hintegrity : Integrity collation after (state.changes ++ [change]))
    (hkept : ∀ found ∈ state.stored.bundles,
      (∃ left ∈ after.bundles, collation.key left.id = collation.key found.id) ∨
        ∃ id, change = .deleted id ∧ collation.key id = collation.key found.id) :
    Invariant collation { state with stored := after, changes := state.changes ++ [change] } locs := by
  refine ⟨hintegrity, fun other => ?_, fun views hviews view hview =>
    (h.answers views hviews view hview).later change⟩
  obtain ⟨hrows, hdistinct, hviews⟩ := h.threads other
  exact ⟨fun row hrow => (hrows row hrow).later hkept, hdistinct,
    fun view hview => (hviews view hview).later change⟩

theorem Invariant.create (h : Invariant collation state locs) {mid : Stored}
    (hinsert : insertBundle collation id content state.stored = some mid) :
    Invariant collation (state.commit (created collation id content mid) (.wrote id content)).2 locs := by
  cases hcreated : created collation id content mid with
  | none => exact h
  | some after =>
    refine h.change (h.integrity.create hinsert hcreated) fun found hfound => .inl ⟨found, ?_, rfl⟩
    obtain ⟨rfl, -⟩ := insertBundle_ok hinsert
    obtain ⟨rfl, -⟩ := insertItems_ok hcreated
    exact List.mem_append_left _ hfound

theorem Invariant.replace (h : Invariant collation state locs)
    (hother : ∀ seed ∈ seeds, collation.key id ≠ collation.key seed.1) :
    Invariant collation (state.commit (replaced collation id content state.stored) (.wrote id content)).2
      locs := by
  cases hreplaced : replaced collation id content state.stored with
  | none => exact h
  | some after =>
    refine h.change (h.integrity.replace hreplaced hother) fun found hfound =>
      .inl ⟨found.update collation id content, ?_, congrArg collation.key (update_id found)⟩
    obtain ⟨rfl, -⟩ := insertItems_ok hreplaced
    exact List.mem_map_of_mem hfound

theorem Invariant.delete (h : Invariant collation state locs) :
    Invariant collation (execute collation (.delete id) state).2 locs := by
  rw [execute]
  split
  · exact h
  · next affected hlength =>
    obtain ⟨gone, hgone⟩ := List.exists_mem_of_length_pos (hlength ▸ Nat.succ_pos affected)
    obtain ⟨hgone, hgoes⟩ := List.mem_filter.mp hgone
    refine h.change (h.integrity.delete hgone hgoes) fun found hfound => ?_
    cases hfoundGoes : found.goes collation id with
    | true => exact .inr ⟨id, rfl, (goes_iff.mp hfoundGoes).1.symm⟩
    | false =>
      refine .inl ⟨found, List.mem_filter.mpr ⟨hfound, ?_⟩, rfl⟩
      rw [hfoundGoes]
      rfl

theorem Invariant.respond (h : Invariant collation state locs)
    {answer : Except BundleError (List BundleView)}
    (hanswer : ∀ views, answer = .ok views → ∀ view ∈ views, view ∈ (locs t).views) :
    Invariant collation { state with answers := state.answers ++ [answer] } locs := by
  refine ⟨h.integrity, h.threads, fun views hviews view hview => ?_⟩
  rcases List.mem_append.mp hviews with hviews | hviews
  · exact h.answers views hviews view hview
  · exact (h.threads t).views view (hanswer views (List.mem_singleton.mp hviews).symm view hview)

theorem Invariant.execute (h : Invariant collation state locs) {op : Op}
    (hpre : mayPerform collation op (locs t)) :
    Invariant collation (execute collation op state).2
      (Function.update locs t (note op (execute collation op state).1 (locs t))) := by
  cases op with
  | rows id =>
    have hfound : ∀ row ∈ selectBundles collation id state.stored, row ∈ state.stored.bundles :=
      fun row hrow => List.mem_of_mem_filter ((List.mem_insertionSort _).mp hrow)
    refine h.thread ⟨fun row hrow => h.integrity.seen (hfound row hrow), ?_,
      fun _ hview => absurd hview List.not_mem_nil⟩
    have hsorted : ((selectBundles collation id state.stored).map (·.id)).Perm
        ((state.stored.bundles.filter fun row => id.all (collation.same row.id)).map (·.id)) :=
      (List.perm_insertionSort _ _).map _
    have hids : (state.stored.bundles.map (·.id)).Nodup := by
      refine List.Nodup.of_map collation.key ?_
      rw [List.map_map]
      exact h.integrity.keys
    exact hsorted.nodup_iff.mpr (hids.sublist (List.filter_sublist.map _))
  | items id =>
    obtain ⟨hrows, hdistinct, -⟩ := h.threads t
    refine h.thread ⟨hrows, hdistinct, fun view hview => ?_⟩
    obtain ⟨row, hrow, -, hof⟩ := mem_views hview
    rw [hof hdistinct]
    exact h.integrity.shown (hrows row hrow) (hpre row hrow)
  | create id content =>
    rw [Bundles.execute]
    split
    · exact h.thread (h.threads t)
    · next mid hinsert => exact (h.create hinsert).thread ((h.create hinsert).threads t)
  | replace id content =>
    obtain ⟨row, hrow, hkey, hown⟩ := hpre
    have hother : ∀ seed ∈ seeds, collation.key id ≠ collation.key seed.1 :=
      fun seed hseed heq => ((h.threads t).rows row hrow).other hown seed hseed (hkey.trans heq)
    exact (h.replace hother).thread ((h.replace hother).threads t)
  | delete id => exact h.delete.thread (h.delete.threads t)
  | respond answer =>
    exact (h.respond hpre).thread (h.threads t)

theorem Invariant.exec (h : Invariant collation state locs) {op : Op} (fails : Bool)
    (hpre : mayPerform collation op (locs t)) :
    Invariant collation (exec collation op fails state).2
      (Function.update locs t (note op (exec collation op fails state).1 (locs t))) := by
  cases fails with
  | false => cases op <;> exact h.execute hpre
  | true =>
    cases op with
    | rows id => exact h.thread (h.threads t)
    | items id => exact h.thread (h.threads t)
    | create id content => exact h.thread (h.threads t)
    | replace id content => exact h.thread (h.threads t)
    | delete id => exact h.thread (h.threads t)
    | respond answer => exact h.execute hpre

theorem seeds_apart (collation : Collation) :
    collation.key "host-basics" ≠ collation.key "env-sample" :=
  fun heq => absurd (collation.faithful _ _ (by decide) (by decide) heq) (by decide)

theorem seeds_integrity (collation : Collation) :
    Integrity collation initial.shared.stored initial.shared.changes := by
  have hne := seeds_apart collation
  refine ⟨?_, ?_, ?_, fun seed hseed => List.mem_map_of_mem hseed, ?_, ?_⟩
  · simp [initial, seeds, seededRow, hne]
  · simp [initial, seeds, seededRow, hostBasics, envSample, ItemRow.of]
  · intro row hrow
    obtain ⟨seed, hseed, rfl⟩ := List.mem_map.mp hrow
    refine ⟨seed.1, seed.2, List.mem_map_of_mem hseed, rfl, rfl, rfl, ?_⟩
    rcases List.mem_cons.mp hseed with rfl | hseed
    · simp [Stored.itemsOf, initial, seeds, seededRow, hostBasics, envSample, ItemRow.of,
        Collation.same, hne.symm]
    · cases List.mem_singleton.mp hseed
      simp [Stored.itemsOf, initial, seeds, seededRow, hostBasics, envSample, ItemRow.of,
        Collation.same, hne]
  · intro row hrow _
    obtain ⟨seed, hseed, rfl⟩ := List.mem_map.mp hrow
    exact ⟨seed, hseed, rfl⟩
  · intro change hchange
    obtain ⟨own, hown, rfl⟩ := List.mem_map.mp hchange
    intro seed hseed hkey
    simp only [seeds, List.mem_cons, List.not_mem_nil, or_false] at hown hseed
    rcases hown with rfl | rfl
    · rcases hseed with rfl | rfl
      · rfl
      · exact absurd hkey hne
    · rcases hseed with rfl | rfl
      · exact absurd hkey.symm hne
      · rfl

theorem reachable_invariant {sys : System} (h : Reachable collation sys) :
    Invariant collation sys.shared sys.loc := by
  have hsound : (center collation).Sound (terms collation) initial := fun _ => trivial
  refine h.invariant center_obeys hsound ?_ ?_ ?_
  · exact ⟨seeds_integrity collation, fun _ => .fresh, fun _ hviews => absurd hviews List.not_mem_nil⟩
  · intro sys t op fails reply shared _ hinv _ _ hpre _ hexec
    have heq : exec collation op fails sys.shared = (reply, shared) := Option.some.inj hexec
    have hnext := hinv.exec fails hpre
    rw [heq] at hnext
    exact hnext
  · intro sys event sys' _ hinv _ hfire
    cases event with
    | start t request =>
      rw [show (center collation).fire = fire from rfl, fire] at hfire
      split at hfire
      · cases hfire
        rw [Machine.loc_update]
        exact hinv.thread .fresh
      · cases hfire
    | abort t =>
      cases hfire
      rw [Machine.loc_update]
      exact hinv.thread .fresh

/-! ## Responses -/

theorem Integrity.wrote_seed (h : Integrity collation stored changes) {seed : String × Content}
    (hseed : seed ∈ seeds) (hwrote : .wrote id content ∈ changes)
    (hkey : collation.key id = collation.key seed.1) : id = seed.1 ∧ content = seed.2 := by
  cases h.keeps _ hwrote seed hseed hkey
  exact ⟨rfl, rfl⟩

/-- A bundle of the migration is shown as it was inserted. -/
theorem Integrity.shown_seed (h : Integrity collation stored changes) {view : BundleView}
    (hshown : Shown collation changes view) (hbuiltin : view.builtin = true) :
    ∃ seed ∈ seeds, view.id = seed.1 ∧ view.name = seed.2.name ∧
      view.description = seed.2.description ∧ view.items.Perm seed.2.items := by
  obtain ⟨seed, hseed, hid⟩ := hshown.seed hbuiltin
  refine ⟨seed, hseed, hid, ?_⟩
  obtain ⟨id, content, hwrote, hkey, hname, hdescription⟩ := hshown.written
  obtain ⟨-, rfl⟩ := h.wrote_seed hseed hwrote (hid ▸ hkey)
  refine ⟨hname, hdescription, ?_⟩
  rcases hshown.items with ⟨content, hwrote, hperm⟩ | ⟨-, hmissing⟩
  · obtain ⟨-, rfl⟩ := h.wrote_seed hseed hwrote (congrArg collation.key hid)
    exact hperm
  · rcases hmissing with ⟨id, content, hwrote, hkey, hspelled⟩ | ⟨id, hdeleted, hkey⟩
    · obtain ⟨rfl, -⟩ := h.wrote_seed hseed hwrote (hid ▸ hkey)
      exact absurd hid.symm hspelled
    · exact absurd (hid ▸ hkey) (h.keeps _ hdeleted seed hseed)

theorem Shown.bundle {view : BundleView} (h : Shown collation changes view) :
    ∃ bundle : Installs.Bundle, bundle.items = view.items := by
  rcases h.items with ⟨content, -, hperm⟩ | ⟨hnone, -⟩
  · exact ⟨⟨view.items, (hperm.map _).nodup_iff.mpr content.distinct⟩, rfl⟩
  · exact ⟨⟨[], List.nodup_nil⟩, hnone.symm⟩

/-- Whatever the interleaving, the rows of a bundle hold what one change wrote, and those of the
migration what it inserted.  Every bundle of a response has a name that one change wrote, and the
items of one change or, when it was deleted or replaced under another spelling, none. -/
theorem bundles_whole {sys : System} (h : Reachable collation sys) :
    (∀ row ∈ sys.shared.stored.bundles, Written collation sys.shared.stored sys.shared.changes row) ∧
    (∀ seed ∈ seeds, seededRow seed ∈ sys.shared.stored.bundles ∧
      sys.shared.stored.itemsOf collation seed.1 = seed.2.items.map (.of seed.1)) ∧
    ∀ views, .ok views ∈ sys.shared.answers → ∀ view ∈ views,
      Shown collation sys.shared.changes view ∧
      (view.builtin = true → ∃ seed ∈ seeds, view.id = seed.1 ∧ view.name = seed.2.name ∧
        view.description = seed.2.description ∧ view.items.Perm seed.2.items) ∧
      ∃ bundle : Installs.Bundle, bundle.items = view.items := by
  have hinv := reachable_invariant h
  refine ⟨hinv.integrity.written, fun seed hseed => ?_, fun views hviews view hview => ?_⟩
  · refine ⟨hinv.integrity.seeded seed hseed, ?_⟩
    obtain ⟨id, content, hwrote, hkey, -, -, hitems⟩ :=
      hinv.integrity.written _ (hinv.integrity.seeded seed hseed)
    obtain ⟨rfl, rfl⟩ := hinv.integrity.wrote_seed hseed hwrote hkey
    exact hitems
  · have hshown := hinv.answers views hviews view hview
    exact ⟨hshown, hinv.integrity.shown_seed hshown, hshown.bundle⟩

/-! A bundle that is replaced under another spelling. -/

def lowercaseKey (text : String) : String := String.ofList (text.toList.map Text.toAsciiLowercase)

theorem lowercaseKey_valid {id : String} (h : validBundleId id = true) : lowercaseKey id = id := by
  have hsame : ∀ c ∈ id.toList, Text.toAsciiLowercase c = c := by
    intro c hc
    have hchar : Text.isAsciiLowercase c = true ∨ Text.isAsciiDigit c = true ∨ c = '-' := by
      rw [validBundleId] at h
      cases hlist : id.toList with
      | nil =>
        rw [hlist] at hc
        cases hc
      | cons first rest =>
        rw [hlist] at h hc
        simp only [Catalog.validSkillName, Bool.and_eq_true, List.all_eq_true, Bool.or_eq_true,
          beq_iff_eq] at h
        rcases List.mem_cons.mp hc with rfl | hc
        · exact .inl h.1.2
        · rcases h.2 c hc with (hlower | hdigit) | hhyphen
          · exact .inl hlower
          · exact .inr (.inl hdigit)
          · exact .inr (.inr hhyphen)
    rw [Text.toAsciiLowercase, if_neg]
    intro hupper
    simp only [Text.isAsciiUppercase, Text.isAsciiLowercase, Text.isAsciiDigit, Bool.and_eq_true,
      decide_eq_true_eq, Char.le_def, UInt32.le_iff_toNat_le] at hupper hchar
    rcases hchar with hchar | hchar | rfl
    · exact absurd (hchar.1.trans hupper.2) (by decide)
    · exact absurd (hupper.1.trans hchar.2) (by decide)
    · exact absurd hupper.1 (by decide)
  rw [lowercaseKey, List.map_congr_left hsame, List.map_id', String.ofList_toList]

def lowercase : Collation where
  key := lowercaseKey
  faithful _ _ ha hb h := (lowercaseKey_valid ha).symm.trans (h.trans (lowercaseKey_valid hb))

def webBundle : BundleReplace := ⟨"Web", none, [⟨"uptime", "*"⟩]⟩

def respelled : List (Move Nat Bool Event) :=
  .event (.start 0 (.create ⟨webBundle, "web"⟩)) :: List.replicate 4 (.act 0 false) ++
    .event (.start 0 (.replace "WEB" webBundle)) :: List.replicate 6 (.act 0 false)

/-- The last response shows the bundle without its items. -/
def showsNothing (sys : System) : Bool :=
  match sys.shared.answers.getLast? with
  | some (.ok [view]) => view.id == "web" && view.items.isEmpty
  | _ => false

theorem bundles_whole_respelled : ∃ sys, Reachable lowercase sys ∧ showsNothing sys = true ∧
    ∀ row ∈ sys.shared.stored.bundles,
      Written lowercase sys.shared.stored sys.shared.changes row := by
  have hrun : ((center lowercase).run (fun _ _ => true) initial respelled).any showsNothing = true := by
    decide +kernel
  obtain ⟨sys, hreach, hcheck⟩ := Machine.exists_reaches_of_run (fun _ _ _ => trivial) hrun
  exact ⟨sys, hreach, hcheck, (bundles_whole hreach).1⟩

end Novbot.Desired.Bundles
