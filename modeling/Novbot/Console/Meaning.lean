import Novbot.Lib.Lines
import Novbot.Tags.Canonical
import Novbot.Console.Fixed

/-!
# The meaning of the console's canonical text

The console writes one requirement for all those that ask for values of a key, with the values
of all of them: tags meet it as soon as they meet one (`written_holds`).  The text is never longer
than the one it was read from (`width_written`), so that the center refuses it only for a set that
became too large.

It means the same exactly when the requirements are `Mergeable` (`keepsListing_iff`).
-/

namespace Novbot.Console

open Text Tags

/-! ## What the center lists -/

/-- Blank and `*` select every node. Anything else is a filter. -/
def parseListSelector : Option (List Char) → Except SelectorError (Option Selector)
  | none => return none
  | some raw => do
    match ← Tags.parseSelector raw with
    | .empty => return none
    | .all => return none
    | .filter selector => return some selector

/-- `list_nodes` keeps a node with these tags. -/
def retains (selector : Option Selector) (tags : SortedMap String String) : Bool :=
  match selector with
  | none => true
  | some selector => selectorMatches selector tags

/-- Two queries are accepted and list the same nodes. -/
def SameListing (query query' : Option (List Char)) : Prop :=
  ∃ selector selector', parseListSelector query = .ok selector ∧
    parseListSelector query' = .ok selector' ∧
    ∀ tags, retains selector tags = retains selector' tags

/-- What the nodes page asks for: `selector || undefined`. -/
def listQuery (selector : List Char) : Option (List Char) :=
  if selector = [] then none else some selector

/-! ## Requirements on one key -/

/-- The operators that ask for values. -/
def asking : Requirement → Bool
  | .eq _ _ => true
  | .isIn _ _ => true
  | _ => false

/-- The requirement does not hold of tags with this value of the key. -/
def bars (key value : String) : Requirement → Bool
  | .notEq other barred => other = key ∧ barred = value
  | .notIn other values => other = key ∧ value ∈ values
  | .notExists other => other = key
  | _ => false

def Barred (reqs : List Requirement) (key value : String) : Prop :=
  ∃ req ∈ reqs, bars key value req = true

/-- No value of some key meets the requirements. -/
def Dead (reqs : List Requirement) : Prop :=
  ∃ key, (.keyExists key ∈ reqs ∧ .notExists key ∈ reqs) ∨
    (askedValues reqs key ≠ [] ∧ ∀ value ∈ askedValues reqs key, Barred reqs key value)

/-- What one requirement asks of a key, each that asks for values of it asks for too, unless it is
barred. -/
def Agreed (reqs : List Requirement) : Prop :=
  ∀ key, ∀ value ∈ askedValues reqs key, ¬ Barred reqs key value →
    ∀ req ∈ reqs, asked key req ≠ [] → value ∈ asked key req

/-- One requirement may stand for all that ask for values of a key. -/
structure Mergeable (reqs : List Requirement) : Prop where
  fits : ∀ key, (sortedUnique (askedValues reqs key)).length ≤ maxSetValues
  agreed : Dead reqs ∨ Agreed reqs

section
variable {localeCompare : String → String → Int} {reqs : List Requirement} {req : Requirement}
  {chip : FilterChip} {chips : List FilterChip} {key value : String}
  {tags : SortedMap String String}

theorem asked_mem_key (h : value ∈ asked key req) : req.sortKey.1 = key ∧ asking req = true := by
  cases req with
  | eq other _ | isIn other _ =>
    rw [asked] at h
    split at h
    · next hkey => exact ⟨hkey, rfl⟩
    · cases h
  | _ => cases h

theorem asked_self (h : asking req = true) (hformed : req.Formed) : asked req.sortKey.1 req ≠ [] := by
  cases req with
  | eq key value => simp [asked, Requirement.sortKey]
  | isIn key values =>
    rw [asked, Requirement.sortKey, if_pos rfl]
    exact hformed.2.1
  | _ => cases h

theorem holds_asking (h : asking req = true) : req.holds tags = true ↔
    ∃ value ∈ asked req.sortKey.1 req, tags.lookup req.sortKey.1 = some value := by
  cases req with
  | eq key value => simp [Requirement.holds, asked, Requirement.sortKey]
  | isIn key values =>
    simp only [Requirement.holds, asked, Requirement.sortKey, if_true]
    cases tags.lookup key with
    | none => simp
    | some value => simp
  | _ => cases h

theorem holds_other (h : asking req = false) : req.holds tags = true ↔
    (∀ value, tags.lookup req.sortKey.1 = some value → bars req.sortKey.1 value req = false) ∧
      (req = .keyExists req.sortKey.1 → tags.lookup req.sortKey.1 ≠ none) := by
  cases req with
  | notEq key value =>
    simp only [Requirement.holds, Requirement.sortKey, bars]
    cases tags.lookup key with
    | none => simp
    | some other =>
      simp only [bne_iff_ne, ne_eq, Option.some.injEq]
      constructor
      · intro hne
        refine ⟨fun found hfound => ?_, fun heq => by cases heq⟩
        cases hfound
        simpa using Ne.symm hne
      · intro h heq
        have hbars := h.1 other rfl
        simp [heq] at hbars
  | notIn key values =>
    simp only [Requirement.holds, Requirement.sortKey, bars]
    cases tags.lookup key with
    | none => simp
    | some other => simp
  | keyExists key =>
    simp only [Requirement.holds, Requirement.sortKey, bars, SortedMap.contains]
    cases tags.lookup key with
    | none => simp
    | some other => simp
  | notExists key =>
    simp only [Requirement.holds, Requirement.sortKey, bars, SortedMap.contains]
    cases tags.lookup key with
    | none => simp
    | some other => simp
  | eq _ _ | isIn _ _ => cases h

/-- The requirements hold when each that asks finds its value, and the others do. -/
theorem holds_iff (hformed : ∀ req ∈ reqs, req.Formed) : (∀ req ∈ reqs, req.holds tags = true) ↔
    (∀ key, ∀ req ∈ reqs, asked key req ≠ [] →
      ∃ value ∈ asked key req, tags.lookup key = some value) ∧
    ∀ req ∈ reqs, asking req = false → req.holds tags = true := by
  constructor
  · intro hall
    refine ⟨fun key req hreq hne => ?_, fun req hreq _ => hall req hreq⟩
    obtain ⟨value, hvalue⟩ := List.exists_mem_of_ne_nil _ hne
    obtain ⟨rfl, hasks⟩ := asked_mem_key hvalue
    exact (holds_asking hasks).mp (hall req hreq)
  · rintro ⟨hasked, hothers⟩ req hreq
    cases hasks : asking req with
    | false => exact hothers req hreq hasks
    | true =>
      rw [holds_asking hasks]
      exact hasked _ req hreq (asked_self hasks (hformed req hreq))

/-- A chip that asks has all the values that are asked of its key. -/
theorem Merged.mem_values (h : Merged localeCompare reqs chips) (hchip : chip ∈ chips)
    (hasks : chip.asks = true) : value ∈ chip.values ↔ value ∈ askedValues reqs chip.key := by
  rw [← h.asked]
  constructor
  · exact fun hmem => ⟨chip, hchip, hasks, rfl, hmem⟩
  · rintro ⟨other, hother, hotherAsks, hkey, hmem⟩
    have hsame : other = chip := List.inj_on_of_nodup_map h.one
      (List.mem_filter.mpr ⟨hother, hotherAsks⟩) (List.mem_filter.mpr ⟨hchip, hasks⟩) hkey
    rwa [hsame] at hmem

theorem not_barred_of_holds (h : ∀ req ∈ reqs, asking req = false → req.holds tags = true)
    (hvalue : tags.lookup key = some value) : ¬ Barred reqs key value := by
  rintro ⟨req, hreq, hbars⟩
  have hother : asking req = false := by
    cases req with
    | eq _ _ | isIn _ _ => cases hbars
    | _ => rfl
  have hkey : req.sortKey.1 = key := by
    cases req with
    | notEq _ _ | notIn _ _ | notExists _ =>
      simp only [bars, decide_eq_true_eq] at hbars
      first | exact hbars.1 | exact hbars
    | _ => cases hbars
  subst hkey
  have hnot := ((holds_other hother).mp (h req hreq hother)).1 value hvalue
  rw [hbars] at hnot
  cases hnot

/-! ## What is written -/

theorem added_asks (req : Requirement) : (added localeCompare req).asks = asking req := by
  cases req <;> rfl

/-- Writing a requirement that asks for no value changes no meaning. -/
theorem holds_added (h : asking req = false) :
    (sortedChip localeCompare (sortedChip localeCompare
      (added localeCompare req))).requirement.holds tags = req.holds tags := by
  cases req with
  | eq _ _ | isIn _ _ => cases h
  | notEq key value => rfl
  | notIn key values =>
    simp only [added, sortedChip, chipOf, FilterChip.requirement, Requirement.holds]
    cases tags.lookup key with
    | none => rfl
    | some value =>
      simp only [Option.all_some]
      congr 1
      rw [Bool.eq_iff_iff, List.contains_iff_mem, List.contains_iff_mem]
      simp only [mem_uniqueSorted]
  | keyExists key => rfl
  | notExists key => rfl

/-- A chip that asks is met by each of its values. -/
theorem holds_chip (h : Formed chip) (hasks : chip.asks = true) :
    (sortedChip localeCompare (sortedChip localeCompare chip)).requirement.holds tags = true ↔
      ∃ value ∈ chip.values, tags.lookup chip.key = some value := by
  obtain ⟨key, op, values⟩ := chip
  have hcount := h.count
  cases op with
  | eq =>
    obtain ⟨value, rfl⟩ := List.length_eq_one_iff.mp hcount
    simp [sortedChip, uniqueSorted, distinct, FilterChip.requirement, Requirement.holds]
  | isIn =>
    simp only [sortedChip, FilterChip.requirement, Requirement.holds]
    cases tags.lookup key with
    | none => simp
    | some value => simp [mem_uniqueSorted]
  | _ => cases hasks

theorem Merged.mem_other (h : Merged localeCompare reqs chips) (hreq : req ∈ reqs)
    (hother : asking req = false) : added localeCompare req ∈ chips := by
  have hin : added localeCompare req ∈ chips.filter fun chip => !chip.asks := by
    rw [h.others]
    refine List.mem_filter.mpr ⟨List.mem_map_of_mem hreq, ?_⟩
    show (!(added localeCompare req).asks) = true
    rw [added_asks, hother]
    rfl
  exact (List.mem_filter.mp hin).1

/-- What the tags must meet that the canonical text selects. -/
theorem written_holds (h : Merged localeCompare reqs chips) :
    (∀ req ∈ written localeCompare chips, req.holds tags = true) ↔
      (∀ key, askedValues reqs key ≠ [] →
        ∃ value ∈ askedValues reqs key, tags.lookup key = some value) ∧
      ∀ req ∈ reqs, asking req = false → req.holds tags = true := by
  constructor
  · intro hall
    constructor
    · intro key hne
      obtain ⟨value, hvalue⟩ := List.exists_mem_of_ne_nil _ hne
      obtain ⟨chip, hchip, hasks, rfl, -⟩ := (h.asked key value).mpr hvalue
      have hholds := hall _ (mem_written.mpr ⟨chip, hchip, rfl⟩)
      obtain ⟨found, hfound, hlookup⟩ := (holds_chip (h.formed chip hchip) hasks).mp hholds
      exact ⟨found, (h.asked _ found).mp ⟨chip, hchip, hasks, rfl, hfound⟩, hlookup⟩
    · intro req hreq hother
      rw [← @holds_added localeCompare req tags hother]
      exact hall _ (mem_written.mpr ⟨_, h.mem_other hreq hother, rfl⟩)
  · rintro ⟨hasked, hothers⟩ written hwritten
    obtain ⟨chip, hchip, rfl⟩ := mem_written.mp hwritten
    cases hasks : chip.asks with
    | true =>
      rw [holds_chip (h.formed chip hchip) hasks]
      obtain ⟨value, hvalue⟩ :=
        List.exists_mem_of_ne_nil _ (values_of_asks (h.formed chip hchip) hasks)
      have hin := (h.mem_values hchip hasks).mp hvalue
      obtain ⟨found, hfound, hlookup⟩ := hasked chip.key (List.ne_nil_of_mem hin)
      exact ⟨found, (h.mem_values hchip hasks).mpr hfound, hlookup⟩
    | false =>
      have hin : chip ∈ chips.filter fun chip => !chip.asks :=
        List.mem_filter.mpr ⟨hchip, by rw [hasks]; rfl⟩
      rw [h.others] at hin
      obtain ⟨hin, -⟩ := List.mem_filter.mp hin
      obtain ⟨req, hreq, rfl⟩ := List.mem_map.mp hin
      have hother : asking req = false := by
        rw [← @added_asks localeCompare req]
        exact hasks
      exact (holds_added hother).trans (hothers req hreq hother)

/-! ## Tags that tell them apart -/

/-- The values that a requirement bars. -/
def barredValues : Requirement → List String
  | .notEq _ value => [value]
  | .notIn _ values => values
  | _ => []

theorem mem_barredValues (h : bars key value req = true) :
    value ∈ barredValues req ∨ req = .notExists key := by
  cases req with
  | notEq other barred =>
    simp only [bars, decide_eq_true_eq] at h
    exact .inl (by simp [barredValues, h.2])
  | notIn other values =>
    simp only [bars, decide_eq_true_eq] at h
    exact .inl h.2
  | notExists other =>
    simp only [bars, decide_eq_true_eq] at h
    exact .inr (by rw [h])
  | _ => cases h

theorem exists_fresh (values : List String) : ∃ value, value ∉ values := by
  refine ⟨String.ofList (List.replicate ((values.map String.length).sum + 1) 'a'), fun hmem => ?_⟩
  have hle := List.single_le_sum (fun _ _ => Nat.zero_le _) _ (List.mem_map_of_mem (f := String.length) hmem)
  rw [String.length_ofList, List.length_replicate] at hle
  omega

/-- Unless the requirements are dead, tags with any value that is asked for and not barred meet
what the canonical text selects. -/
theorem exists_meeting (hdead : ¬ Dead reqs) (hvalue : value ∈ askedValues reqs key)
    (hfree : ¬ Barred reqs key value) : ∃ tags : SortedMap String String,
      tags.lookup key = some value ∧
      (∀ other, askedValues reqs other ≠ [] →
        ∃ found ∈ askedValues reqs other, tags.lookup other = some found) ∧
      ∀ req ∈ reqs, asking req = false → req.holds tags = true := by
  have hpick : ∀ other, ∃ found : Option String, (other = key → found = some value) ∧
      (askedValues reqs other ≠ [] → ∃ item ∈ askedValues reqs other, found = some item) ∧
      (.keyExists other ∈ reqs → found ≠ none) ∧
      ∀ item, found = some item → ¬ Barred reqs other item := by
    intro other
    by_cases hkey : other = key
    · subst hkey
      refine ⟨some value, fun _ => rfl, fun _ => ⟨value, hvalue, rfl⟩,
        fun _ => Option.some_ne_none _, fun item hitem => ?_⟩
      cases hitem
      exact hfree
    · by_cases hasked : askedValues reqs other = []
      · by_cases hexists : .keyExists other ∈ reqs
        · obtain ⟨fresh, hfresh⟩ := exists_fresh (reqs.flatMap barredValues)
          refine ⟨some fresh, fun hsame => absurd hsame hkey, fun hne => absurd hasked hne,
            fun _ => Option.some_ne_none _, ?_⟩
          rintro item hitem ⟨req, hreq, hbars⟩
          cases hitem
          rcases mem_barredValues hbars with hmem | rfl
          · exact hfresh (List.mem_flatMap.mpr ⟨req, hreq, hmem⟩)
          · exact hdead ⟨other, .inl ⟨hexists, hreq⟩⟩
        · exact ⟨none, fun hsame => absurd hsame hkey, fun hne => absurd hasked hne,
            fun hin => absurd hin hexists, fun _ hitem => by cases hitem⟩
      · obtain ⟨item, hitem, hitemFree⟩ : ∃ item ∈ askedValues reqs other, ¬ Barred reqs other item := by
          by_contra hall
          refine hdead ⟨other, .inr ⟨hasked, fun item hitem => ?_⟩⟩
          by_contra hitemFree
          exact hall ⟨item, hitem, hitemFree⟩
        refine ⟨some item, fun hsame => absurd hsame hkey, fun _ => ⟨item, hitem, rfl⟩,
          fun _ => Option.some_ne_none _, fun same hsame => ?_⟩
        cases hsame
        exact hitemFree
  choose pick hpick using hpick
  obtain ⟨tags, htags⟩ := SortedMap.exists_lookup (key :: reqs.map (·.sortKey.1)) pick
  have hlookup : ∀ req ∈ reqs, tags.lookup req.sortKey.1 = pick req.sortKey.1 :=
    fun req hreq => htags _ (.tail _ (List.mem_map.mpr ⟨req, hreq, rfl⟩))
  refine ⟨tags, ?_, fun other hasked => ?_, fun req hreq hother => ?_⟩
  · rw [htags key (.head _)]
    exact (hpick key).1 rfl
  · obtain ⟨item, hitem⟩ := List.exists_mem_of_ne_nil _ hasked
    obtain ⟨req, hreq, hin⟩ := List.mem_flatMap.mp hitem
    obtain ⟨rfl, -⟩ := asked_mem_key hin
    rw [hlookup req hreq]
    exact (hpick _).2.1 hasked
  · rw [holds_other hother, hlookup req hreq]
    constructor
    · intro item hitem
      by_contra hbars
      rw [Bool.not_eq_false] at hbars
      exact (hpick _).2.2.2 item hitem ⟨req, hreq, hbars⟩
    · intro hexists
      refine (hpick _).2.2.1 ?_
      rw [← hexists]
      exact hreq

/-- The canonical text selects the same tags exactly when the requirements agree. -/
theorem same_tags_iff (h : Merged localeCompare reqs chips) (hformed : ∀ req ∈ reqs, req.Formed) :
    (∀ tags, (∀ req ∈ reqs, req.holds tags = true) ↔
      ∀ req ∈ written localeCompare chips, req.holds tags = true) ↔ Dead reqs ∨ Agreed reqs := by
  constructor
  · intro hsame
    by_contra hnot
    obtain ⟨hdead, hdisagreed⟩ := not_or.mp hnot
    refine hdisagreed fun key value hvalue hfree req hreq hne => ?_
    obtain ⟨tags, hkey, hasked, hothers⟩ := exists_meeting hdead hvalue hfree
    have hall := (hsame tags).mpr ((written_holds h).mpr ⟨hasked, hothers⟩)
    obtain ⟨found, hfound, hlookup⟩ := ((holds_iff hformed).mp hall).1 key req hreq hne
    rw [hkey] at hlookup
    cases hlookup
    exact hfound
  · intro hagreed tags
    rw [holds_iff hformed, written_holds h]
    refine and_congr_left fun hothers => ⟨fun hasked key hne => ?_, fun hasked key req hreq hne => ?_⟩
    · obtain ⟨value, hvalue⟩ := List.exists_mem_of_ne_nil _ hne
      obtain ⟨req, hreq, hin⟩ := List.mem_flatMap.mp hvalue
      obtain ⟨found, hfound, hlookup⟩ := hasked key req hreq (List.ne_nil_of_mem hin)
      exact ⟨found, List.mem_flatMap.mpr ⟨req, hreq, hfound⟩, hlookup⟩
    · rcases hagreed with ⟨dead, hexists | ⟨hsome, hbarred⟩⟩ | hagreed
      · have hthere : tags.contains dead = true := hothers _ hexists.1 rfl
        have hgone : (!tags.contains dead) = true := hothers _ hexists.2 rfl
        rw [hthere] at hgone
        cases hgone
      · obtain ⟨value, hvalue, hlookup⟩ := hasked dead hsome
        exact absurd (hbarred value hvalue) (not_barred_of_holds hothers hlookup)
      · obtain ⟨item, hitem⟩ := List.exists_mem_of_ne_nil _ hne
        obtain ⟨value, hvalue, hlookup⟩ :=
          hasked key (List.ne_nil_of_mem (List.mem_flatMap.mpr ⟨req, hreq, hitem⟩))
        have hfree := not_barred_of_holds hothers hlookup
        exact ⟨value, hagreed key value hvalue hfree req hreq hne, hlookup⟩

/-! ## How long the canonical text is -/

/-- What a requirement that asks takes beside its key and values. -/
def signWidth : Requirement → Nat
  | .isIn _ _ => 6
  | _ => 1

/-- The room of values with what separates them. -/
def valuesWidth (values : List String) : Nat := (values.map (·.length + 1)).sum

theorem width_asking (h : asking req = true) (hformed : req.Formed) : width req =
    req.sortKey.1.length + signWidth req + valuesWidth (asked req.sortKey.1 req) := by
  have hwords : "=".length = 1 ∧ " in (".length = 5 ∧ ")".length = 1 := ⟨rfl, rfl, rfl⟩
  obtain ⟨heq, hin, hclose⟩ := hwords
  cases req with
  | eq key value =>
    simp only [width, Requirement.canonical, Requirement.sortKey, signWidth, asked, if_true,
      valuesWidth, List.map_singleton, List.sum_singleton, String.length_append]
    omega
  | isIn key values =>
    have hlength := length_intercalate hformed.2.1
    simp only [width, Requirement.canonical, Requirement.sortKey, signWidth, asked, if_true,
      valuesWidth, String.length_append]
    omega
  | _ => cases h

/-- The requirement that is written for a chip. -/
def writtenChip (localeCompare : String → String → Int) (chip : FilterChip) : Requirement :=
  (sortedChip localeCompare (sortedChip localeCompare chip)).requirement

theorem writtenChip_formed (h : Formed chip) : (writtenChip localeCompare chip).Formed :=
  requirement_formed h.sorted.sorted

theorem writtenChip_asks (hasks : chip.asks = true) :
    asking (writtenChip localeCompare chip) = true ∧
      (writtenChip localeCompare chip).sortKey.1 = chip.key ∧
      signWidth (writtenChip localeCompare chip) = if chip.op = .isIn then 6 else 1 := by
  obtain ⟨key, op, values⟩ := chip
  cases op with
  | eq | isIn => exact ⟨rfl, rfl, rfl⟩
  | _ => cases hasks

theorem writtenChip_values (h : Formed chip) (hasks : chip.asks = true) :
    (asked chip.key (writtenChip localeCompare chip)).Perm chip.values := by
  obtain ⟨key, op, values⟩ := chip
  have hcount := h.count
  have hperm : (uniqueSorted localeCompare (uniqueSorted localeCompare values)).Perm values :=
    (uniqueSorted_perm (nodup_uniqueSorted values)).trans (uniqueSorted_perm h.nodup)
  cases op with
  | eq =>
    obtain ⟨value, rfl⟩ := List.length_eq_one_iff.mp hcount
    simp [writtenChip, sortedChip, uniqueSorted, distinct, FilterChip.requirement, asked]
  | isIn => simpa [writtenChip, sortedChip, FilterChip.requirement, asked] using hperm
  | _ => cases hasks

/-- A chip that asks takes no more room than the requirements of its key that ask. -/
theorem width_group (h : Merged localeCompare reqs chips) (hformed : ∀ req ∈ reqs, req.Formed)
    (hchip : chip ∈ chips) (hasks : chip.asks = true) :
    width (writtenChip localeCompare chip) ≤
      (((reqs.filter asking).filter fun req => req.sortKey.1 = chip.key).map width).sum := by
  have hchipFormed := h.formed chip hchip
  obtain ⟨hwritten, hkey, hsign⟩ := @writtenChip_asks localeCompare chip hasks
  have hmem : ∀ {req}, req ∈ reqs → ∀ {value}, value ∈ asked chip.key req →
      req ∈ (reqs.filter asking).filter fun req => req.sortKey.1 = chip.key := by
    intro req hreq value hvalue
    obtain ⟨hsame, hreqAsks⟩ := asked_mem_key hvalue
    exact List.mem_filter.mpr ⟨List.mem_filter.mpr ⟨hreq, hreqAsks⟩, decide_eq_true hsame⟩
  have hgroup : ∀ req ∈ (reqs.filter asking).filter fun req => req.sortKey.1 = chip.key,
      width req = chip.key.length + signWidth req + valuesWidth (asked chip.key req) := by
    intro req hreq
    obtain ⟨hreq, hsame⟩ := List.mem_filter.mp hreq
    obtain ⟨hreq, hreqAsks⟩ := List.mem_filter.mp hreq
    rw [width_asking hreqAsks (hformed req hreq), of_decide_eq_true hsame]
  -- One of the requirements takes the room of the operator.
  obtain ⟨member, hmember, hroom⟩ : ∃ req ∈ (reqs.filter asking).filter fun req =>
      req.sortKey.1 = chip.key, (if chip.op = .isIn then 6 else 1) ≤ signWidth req := by
    by_cases hop : chip.op = .isIn
    · obtain ⟨values, hin⟩ := h.sets chip hchip hop
      have hself := @asked_self (.isIn chip.key values) rfl (hformed _ hin)
      obtain ⟨value, hvalue⟩ := List.exists_mem_of_ne_nil _ hself
      exact ⟨_, hmem hin hvalue, by rw [if_pos hop]; rfl⟩
    · obtain ⟨value, hvalue⟩ := List.exists_mem_of_ne_nil _ (values_of_asks hchipFormed hasks)
      obtain ⟨req, hreq, hin⟩ := List.mem_flatMap.mp ((h.mem_values hchip hasks).mp hvalue)
      refine ⟨req, hmem hreq hin, ?_⟩
      rw [if_neg hop]
      cases req <;> simp [signWidth]
  have hvalues : valuesWidth chip.values ≤ (((reqs.filter asking).filter fun req =>
      req.sortKey.1 = chip.key).map fun req => valuesWidth (asked chip.key req)).sum := by
    refine (Sums.sum_le_of_subset hchipFormed.nodup ?_ _).trans
      (Sums.sum_flatMap (·.length + 1) (asked chip.key) _).le
    intro value hvalue
    obtain ⟨req, hreq, hin⟩ := List.mem_flatMap.mp ((h.mem_values hchip hasks).mp hvalue)
    exact List.mem_flatMap.mpr ⟨req, hmem hreq hin, hin⟩
  have hwidth : width (writtenChip localeCompare chip) =
      chip.key.length + (if chip.op = .isIn then 6 else 1) + valuesWidth chip.values := by
    rw [width_asking hwritten (writtenChip_formed hchipFormed), hkey, hsign, valuesWidth,
      ((writtenChip_values hchipFormed hasks).map _).sum_eq, valuesWidth]
  rw [hwidth]
  refine (Nat.add_le_add_left hvalues _).trans (Sums.add_sum_le hmember (fun req hreq => ?_) ?_)
  · rw [hgroup req hreq]
    exact Nat.le_add_left _ _
  · rw [hgroup member hmember]
    omega

theorem width_other (h : asking req = false) (hformed : req.Formed) :
    width (writtenChip localeCompare (added localeCompare req)) ≤ width req := by
  cases req with
  | eq _ _ | isIn _ _ => cases h
  | notIn key values =>
    have hwritten : (writtenChip localeCompare (added localeCompare (.notIn key values))).Formed :=
      writtenChip_formed (chipOf_formed hformed).sorted
    have hsub : (uniqueSorted localeCompare (uniqueSorted localeCompare
        (uniqueSorted localeCompare (uniqueSorted localeCompare values)))) ⊆ values :=
      fun value hvalue => mem_uniqueSorted.mp (mem_uniqueSorted.mp
        (mem_uniqueSorted.mp (mem_uniqueSorted.mp hvalue)))
    have hle := Sums.sum_le_of_subset (nodup_uniqueSorted _) hsub (·.length + 1)
    have hlength := length_intercalate hwritten.2.1
    have hlength' := length_intercalate hformed.2.1
    simp only [width, writtenChip, added, sortedChip, chipOf, FilterChip.requirement,
      Requirement.canonical, String.length_append] at hlength ⊢
    omega
  | notEq key value => exact le_refl _
  | keyExists key => exact le_refl _
  | notExists key => exact le_refl _

/-- The canonical text is no longer than what the requirements take. -/
theorem width_written (h : Merged localeCompare reqs chips)
    (hformed : ∀ req ∈ reqs, req.Formed) :
    ((written localeCompare chips).map width).sum ≤ (reqs.map width).sum := by
  have hwritten : ((written localeCompare chips).map width).sum =
      (chips.map fun chip => width (writtenChip localeCompare chip)).sum := by
    rw [written, List.map_map, ((List.perm_insertionSort _ _).map _).sum_eq, List.map_map]
    rfl
  have hasks : ((chips.filter (·.asks)).map fun chip => width (writtenChip localeCompare chip)).sum ≤
      ((reqs.filter asking).map width).sum := by
    refine @Sums.sum_le_of_keys _ _ _ _ (·.key) (·.sortKey.1) _ _ _ _ h.one fun chip hchip => ?_
    obtain ⟨hchip, hasks⟩ := List.mem_filter.mp hchip
    exact width_group h hformed hchip hasks
  have hothers : ((chips.filter fun chip => !chip.asks).map fun chip =>
      width (writtenChip localeCompare chip)).sum ≤
        ((reqs.filter fun req => !asking req).map width).sum := by
    have hsame : ((reqs.map fun req => sortedChip localeCompare (chipOf localeCompare req)).filter
        fun chip => !chip.asks) =
          (reqs.filter fun req => !asking req).map (added localeCompare) := by
      rw [List.filter_map]
      congr 1
      refine List.filter_congr fun req _ => ?_
      rw [← @added_asks localeCompare req]
      rfl
    rw [h.others, hsame, List.map_map]
    refine List.sum_le_sum fun req hreq => ?_
    obtain ⟨hreq, hother⟩ := List.mem_filter.mp hreq
    rw [Bool.not_eq_true'] at hother
    exact width_other hother (hformed req hreq)
  rw [hwritten, ← Sums.sum_filter_add (·.asks), ← Sums.sum_filter_add asking width reqs]
  exact Nat.add_le_add hasks hothers

/-! ## What the center accepts -/

theorem writtenChip_eq (h : Formed chip) (hwritten : writtenChip localeCompare chip = .eq key value) :
    chip.asks = true ∧ chip.key = key ∧ chip.values = [value] := by
  obtain ⟨chipKey, op, values⟩ := chip
  have hcount := h.count
  cases op with
  | eq =>
    obtain ⟨found, rfl⟩ := List.length_eq_one_iff.mp hcount
    cases hwritten
    exact ⟨rfl, rfl, rfl⟩
  | _ => cases hwritten

theorem written_agree (h : Merged localeCompare reqs chips) :
    EqualitiesAgree (written localeCompare chips) := by
  intro key value value' hvalue hvalue'
  obtain ⟨chip, hchip, hwritten⟩ := mem_written.mp hvalue
  obtain ⟨chip', hchip', hwritten'⟩ := mem_written.mp hvalue'
  obtain ⟨hasks, hkey, hvalues⟩ := writtenChip_eq (h.formed chip hchip) hwritten
  obtain ⟨hasks', hkey', hvalues'⟩ := writtenChip_eq (h.formed chip' hchip') hwritten'
  have hsame : chip = chip' := List.inj_on_of_nodup_map h.one
    (List.mem_filter.mpr ⟨hchip, hasks⟩) (List.mem_filter.mpr ⟨hchip', hasks'⟩) (hkey.trans hkey'.symm)
  rw [hsame, hvalues'] at hvalues
  exact (List.singleton_inj.mp hvalues).symm

/-- Only a set of values of more than one requirement may be too large. -/
theorem written_fits (h : Merged localeCompare reqs chips) (hfits : ∀ req ∈ reqs, req.Fits) :
    (∀ req ∈ written localeCompare chips, req.Fits) ↔
      ∀ key, (sortedUnique (askedValues reqs key)).length ≤ maxSetValues := by
  have hlength : ∀ {chip}, chip ∈ chips → chip.asks = true →
      chip.values.length = (sortedUnique (askedValues reqs chip.key)).length := by
    intro chip hchip hasks
    refine ((List.perm_ext_iff_of_nodup (h.formed chip hchip).nodup (nodup_sortedUnique _)).mpr
      fun value => ?_).length_eq
    rw [h.mem_values hchip hasks, mem_sortedUnique]
  constructor
  · intro hall key
    by_cases hnone : askedValues reqs key = []
    · rw [hnone]
      exact Nat.zero_le _
    · obtain ⟨value, hvalue⟩ := List.exists_mem_of_ne_nil _ hnone
      obtain ⟨chip, hchip, hasks, rfl, -⟩ := (h.asked key value).mpr hvalue
      have hchipFormed := h.formed chip hchip
      have hfitsChip : (writtenChip localeCompare chip).Fits :=
        hall _ (mem_written.mpr ⟨chip, hchip, rfl⟩)
      have hperm := (@writtenChip_values localeCompare chip hchipFormed hasks).length_eq
      rw [← hlength hchip hasks, ← hperm]
      cases hwritten : writtenChip localeCompare chip with
      | eq other found =>
        rw [asked]
        split
        · exact (by decide : 1 ≤ maxSetValues)
        · exact Nat.zero_le _
      | isIn other values =>
        rw [hwritten] at hfitsChip
        rw [asked]
        split
        · exact hfitsChip
        · exact Nat.zero_le _
      | _ => exact Nat.zero_le _
  · intro hall req hreq
    obtain ⟨chip, hchip, rfl⟩ := mem_written.mp hreq
    have hsorted : (sortedChip localeCompare (sortedChip localeCompare chip)).values.length =
        chip.values.length :=
      (length_uniqueSorted (nodup_uniqueSorted _)).trans
        (length_uniqueSorted (h.formed chip hchip).nodup)
    cases hasks : chip.asks with
    | true =>
      have hle := hall chip.key
      rw [← hlength hchip hasks, ← hsorted] at hle
      obtain ⟨key, op, values⟩ := chip
      cases op with
      | eq => trivial
      | isIn => exact hle
      | _ => cases hasks
    | false =>
      have hin : chip ∈ chips.filter fun chip => !chip.asks :=
        List.mem_filter.mpr ⟨hchip, by rw [hasks]; rfl⟩
      rw [h.others] at hin
      obtain ⟨source, hsource, rfl⟩ := List.mem_map.mp (List.mem_filter.mp hin).1
      cases source with
      | notIn key values =>
        have hle : values.length ≤ maxSetValues := hfits _ hsource
        refine (List.subperm_of_subset (nodup_uniqueSorted _) fun value hvalue => ?_).length_le.trans hle
        exact mem_uniqueSorted.mp (mem_uniqueSorted.mp (mem_uniqueSorted.mp (mem_uniqueSorted.mp hvalue)))
      | eq _ _ | isIn _ _ => cases hasks
      | notEq _ _ | keyExists _ | notExists _ => trivial

end

section
variable {raw : List Char} {reqs : List Requirement} {selector : Option Selector}
  {tags : SortedMap String String}

theorem parseListSelector_ok : parseListSelector (some raw) = .ok selector ↔
    (∃ found, Tags.parseSelector raw = .ok (.filter found) ∧ selector = some found) ∨
      (Tags.parseSelector raw = .ok .empty ∨ Tags.parseSelector raw = .ok .all) ∧
        selector = none := by
  rw [parseListSelector]
  cases Tags.parseSelector raw with
  | error e =>
    constructor
    · intro h
      cases h
    · rintro (⟨_, h, -⟩ | ⟨h | h, -⟩) <;> cases h
  | ok parsed =>
    cases parsed with
    | empty =>
      constructor
      · intro h
        cases h
        exact .inr ⟨.inl rfl, rfl⟩
      · rintro (⟨_, h, -⟩ | ⟨-, rfl⟩)
        · cases h
        · rfl
    | all =>
      constructor
      · intro h
        cases h
        exact .inr ⟨.inr rfl, rfl⟩
      · rintro (⟨_, h, -⟩ | ⟨-, rfl⟩)
        · cases h
        · rfl
    | filter found =>
      constructor
      · intro h
        cases h
        exact .inl ⟨found, rfl, rfl⟩
      · rintro (⟨_, h, rfl⟩ | ⟨h | h, -⟩) <;> cases h
        rfl

/-- What the center makes of a list of requirements. -/
theorem parseListSelector_lists (h : Lists raw reqs) : parseListSelector (some raw) = .ok selector ↔
    raw.length ≤ maxSelectorChars ∧ reqs.length ≤ maxRequirements ∧ (∀ req ∈ reqs, req.Fits) ∧
      EqualitiesAgree reqs ∧ selector = some (selectorOf reqs) := by
  obtain ⟨hne, hstar⟩ := h.trim_ne
  rw [parseListSelector_ok]
  constructor
  · rintro (⟨found, hparse, rfl⟩ | ⟨hempty | hall, -⟩)
    · obtain ⟨hlength, read, hread, hcount, hfits, hagree, rfl⟩ := parseSelector_filter_iff.mp hparse
      cases hread.unique hcount hfits h
      exact ⟨hlength, hcount, hfits, hagree, rfl⟩
    · exact absurd (parseSelector_empty_iff.mp hempty).2 hne
    · exact absurd (parseSelector_all_iff.mp hall).2 hstar
  · rintro ⟨hlength, hcount, hfits, hagree, rfl⟩
    exact .inl ⟨_, parseSelector_filter_iff.mpr
      ⟨hlength, reqs, h, hcount, hfits, hagree, rfl⟩, rfl⟩

theorem retains_selectorOf (hagree : EqualitiesAgree reqs) :
    retains (some (selectorOf reqs)) tags = true ↔ ∀ req ∈ reqs, req.holds tags = true := by
  rw [retains, selectorMatches, List.all_eq_true]
  exact forall_congr' fun req => by rw [selectorOf, mem_withoutRepeats hagree]

/-- The page may leave an empty selector out. -/
theorem parseListSelector_query (raw : List Char) :
    parseListSelector (listQuery raw) = parseListSelector (some raw) := by
  rw [listQuery]
  split
  · next hnil =>
    subst hnil
    rfl
  · rfl

theorem sameListing_query {raw raw' : List Char} :
    SameListing (listQuery raw) (listQuery raw') ↔ SameListing (some raw) (some raw') := by
  rw [SameListing, SameListing, parseListSelector_query, parseListSelector_query]

end

section
variable {localeCompare : String → String → Int} {raw : List Char} {reqs : List Requirement}
  {chips : List FilterChip}

/-- The canonical text of the chips of a list. -/
theorem written_lists (h : Merged localeCompare reqs chips) (hne : reqs ≠ [])
    (hformed : ∀ req ∈ reqs, req.Formed) :
    Lists (canonicalSelector localeCompare chips).toList (written localeCompare chips) ∧
      (canonicalSelector localeCompare chips).toList.length + 1 ≤ (reqs.map width).sum ∧
      (written localeCompare chips).length ≤ reqs.length := by
  have hwritten : written localeCompare chips ≠ [] := by
    obtain ⟨req, hreq⟩ := List.exists_mem_of_ne_nil _ hne
    obtain ⟨chip, hchip⟩ : ∃ chip, chip ∈ chips := by
      cases hasks : asking req with
      | true =>
        obtain ⟨value, hvalue⟩ := List.exists_mem_of_ne_nil _ (asked_self hasks (hformed req hreq))
        obtain ⟨chip, hchip, -⟩ :=
          (h.asked _ value).mpr (List.mem_flatMap.mpr ⟨req, hreq, hvalue⟩)
        exact ⟨chip, hchip⟩
      | false => exact ⟨_, h.mem_other hreq hasks⟩
    exact List.ne_nil_of_mem (mem_written.mpr ⟨chip, hchip, rfl⟩)
  have hall : ∀ req ∈ written localeCompare chips, req.Formed := by
    intro req hreq
    obtain ⟨chip, hchip, rfl⟩ := mem_written.mp hreq
    exact writtenChip_formed (h.formed chip hchip)
  have htexts : (written localeCompare chips).map (·.canonical) ≠ [] :=
    fun hnil => hwritten (List.map_eq_nil_iff.mp hnil)
  have hlength := length_intercalate htexts
  rw [List.map_map] at hlength
  rw [canonicalSelector_formed h.formed, String.length_toList, hlength]
  refine ⟨lists_canonical hwritten hall, width_written h hformed, ?_⟩
  rw [written, List.length_map, List.length_insertionSort, List.length_map]
  exact h.count

theorem keepsListing_lists (hlists : Lists raw reqs) {selector : Option Selector}
    (hcenter : parseListSelector (some raw) = .ok selector)
    (hconsole : parseSelector localeCompare raw = some chips) :
    SameListing (some raw) (some (canonicalSelector localeCompare chips).toList) ↔
      Mergeable reqs := by
  obtain ⟨hlength, hcount, hfits, hagree, rfl⟩ := (parseListSelector_lists hlists).mp hcenter
  obtain ⟨rfl, hroom⟩ := parseSelector_lists hlists hconsole
  have hformed := hlists.formed
  have hne : reqs ≠ [] := by cases hlists <;> exact List.cons_ne_nil _ _
  have hmerged := @merged_fold localeCompare reqs hformed hagree
  obtain ⟨hwritten, hwrittenRoom, hwrittenCount⟩ := written_lists hmerged hne hformed
  have hwrittenAgree := written_agree hmerged
  constructor
  · rintro ⟨before, after, hbefore, hafter, hsame⟩
    rw [hcenter] at hbefore
    cases hbefore
    obtain ⟨-, -, hwrittenFits, -, rfl⟩ := (parseListSelector_lists hwritten).mp hafter
    refine ⟨(written_fits hmerged hfits).mp hwrittenFits, (same_tags_iff hmerged hformed).mp fun tags => ?_⟩
    rw [← retains_selectorOf hagree, ← retains_selectorOf hwrittenAgree, hsame]
  · rintro ⟨hsets, hagreed⟩
    refine ⟨_, _, hcenter, (parseListSelector_lists hwritten).mpr ⟨by omega, hwrittenCount.trans hcount,
      (written_fits hmerged hfits).mpr hsets, hwrittenAgree, rfl⟩, fun tags => ?_⟩
    rw [Bool.eq_iff_iff, retains_selectorOf hagree, retains_selectorOf hwrittenAgree]
    exact (same_tags_iff hmerged hformed).mpr hagreed tags

/-- A text that selects every node lists no requirements, and neither do its chips. -/
theorem keepsListing_blank {parsed : SelectorParse} (hcenter : Tags.parseSelector raw = .ok parsed)
    (hblank : Text.trim raw = [] ∨ Text.trim raw = ['*'])
    (hconsole : parseSelector localeCompare raw = some chips) :
    SameListing (some raw) (some (canonicalSelector localeCompare chips).toList) ∧
      ∀ reqs, ¬ Lists raw reqs := by
  constructor
  · have hchars : ∀ c ∈ raw, isWhiteSpace c = true ∨ c = '*' := by
      intro c hc
      obtain ⟨before, after, hraw, hbefore, hafter⟩ := exists_trim raw
      rw [hraw] at hc
      rcases List.mem_append.mp hc with hc | hc
      · exact .inl (hbefore c hc)
      · rcases List.mem_append.mp hc with hc | hc
        · rcases hblank with hnil | hstar
          · rw [hnil] at hc
            cases hc
          · rw [hstar] at hc
            exact .inr (List.mem_singleton.mp hc)
        · exact .inl (hafter c hc)
    cases parseSelector_blank hchars hconsole
    refine ⟨none, none, parseListSelector_ok.mpr (.inr ⟨?_, rfl⟩), rfl, fun _ => rfl⟩
    cases parsed with
    | empty => exact .inl hcenter
    | all => exact .inr hcenter
    | filter selector =>
      obtain ⟨-, reqs, hlists, -⟩ := parseSelector_filter_iff.mp hcenter
      exact absurd hblank (not_or.mpr hlists.trim_ne)
  · exact fun reqs hlists => not_or.mpr hlists.trim_ne hblank

end

/-- The canonical text of the console, and so the nodes page, lists the same nodes as the selector
exactly when the requirements of the selector are mergeable. -/
theorem keepsListing_iff (localeCompare : String → String → Int) {raw : List Char}
    {parsed : SelectorParse} {chips : List FilterChip} (hcenter : Tags.parseSelector raw = .ok parsed)
    (hconsole : parseSelector localeCompare raw = some chips) :
    (SameListing (some raw) (some (canonicalSelector localeCompare chips).toList) ↔
      ∀ reqs, Lists raw reqs → Mergeable reqs) ∧
    (SameListing (listQuery raw) (listQuery (rewritten localeCompare raw)) ↔
      ∀ reqs, Lists raw reqs → Mergeable reqs) := by
  have hdirect : SameListing (some raw) (some (canonicalSelector localeCompare chips).toList) ↔
      ∀ reqs, Lists raw reqs → Mergeable reqs := by
    by_cases hblank : Text.trim raw = [] ∨ Text.trim raw = ['*']
    · obtain ⟨hsame, hnone⟩ := keepsListing_blank hcenter hblank hconsole
      exact iff_of_true hsame fun reqs hlists => absurd hlists (hnone reqs)
    · cases parsed with
      | empty => exact absurd (.inl (parseSelector_empty_iff.mp hcenter).2) hblank
      | all => exact absurd (.inr (parseSelector_all_iff.mp hcenter).2) hblank
      | filter selector =>
        have hlist : parseListSelector (some raw) = .ok (some selector) :=
          parseListSelector_ok.mpr (.inl ⟨selector, hcenter, rfl⟩)
        obtain ⟨-, reqs, hlists, hcount, hfits, -⟩ := parseSelector_filter_iff.mp hcenter
        rw [keepsListing_lists hlists hlist hconsole]
        constructor
        · intro hmergeable reqs' hlists'
          rwa [hlists.unique hcount hfits hlists']
        · exact fun hall => hall reqs hlists
  refine ⟨hdirect, sameListing_query.trans ?_⟩
  by_cases hraw : raw = [] ∨ raw = ['*']
  · have hsame : rewritten localeCompare raw = raw := by
      rw [rewritten, hconsole]
      exact if_pos hraw
    have hblank : Text.trim raw = [] ∨ Text.trim raw = ['*'] := by
      rcases hraw with rfl | rfl
      · exact .inl rfl
      · exact .inr rfl
    obtain ⟨⟨selector, -, hselector, -⟩, hnone⟩ := keepsListing_blank hcenter hblank hconsole
    rw [hsame]
    exact iff_of_true ⟨selector, selector, hselector, hselector, fun _ => rfl⟩
      fun reqs hlists => absurd hlists (hnone reqs)
  · have htext : rewritten localeCompare raw = (canonicalSelector localeCompare chips).toList := by
      rw [rewritten, hconsole]
      exact if_neg hraw
    rw [htext]
    exact hdirect

instance (req : Requirement) : Decidable req.Formed :=
  match req with
  | .eq key value | .notEq key value =>
    inferInstanceAs (Decidable (keyOk key = true ∧ valueOk value = true))
  | .isIn key values | .notIn key values => inferInstanceAs (Decidable
      (keyOk key = true ∧ values ≠ [] ∧ ∀ value ∈ values, valueOk value = true))
  | .keyExists key | .notExists key => inferInstanceAs (Decidable (keyOk key = true))

/-- How the center reads requirements that are written as they are. -/
theorem parse_texts {reqs : List Requirement} {text : String}
    (htext : ",".intercalate (reqs.map (·.canonical)) = text) (hne : reqs ≠ [])
    (hformed : ∀ req ∈ reqs, req.Formed) (hlength : text.toList.length ≤ maxSelectorChars)
    (hcount : reqs.length ≤ maxRequirements) (hfits : ∀ req ∈ reqs, req.Fits)
    (hagree : EqualitiesAgree reqs) : Lists text.toList reqs ∧
      Tags.parseSelector text.toList = .ok (.filter (selectorOf reqs)) := by
  subst htext
  have hlists := lists_canonical hne hformed
  exact ⟨hlists, parseSelector_filter_iff.mpr ⟨hlength, reqs, hlists, hcount, hfits, hagree, rfl⟩⟩

theorem keepsListing_agreed :
    SameListing (some "env=a,env in (a)".toList) (some "env=a".toList) := by
  have hagree : EqualitiesAgree [.eq "env" "a", .isIn "env" ["a"]] := by
    intro key value value' hvalue hvalue'
    simp at hvalue hvalue'
    rw [hvalue.2, hvalue'.2]
  obtain ⟨hlisted, hcenter⟩ := @parse_texts _ "env=a,env in (a)" (by decide +kernel)
    (List.cons_ne_nil _ _) (by decide +kernel) (by decide +kernel) (by decide) (by decide) hagree
  have hconsole : parseSelector Locale.codePoint.compare "env=a,env in (a)".toList =
      some [⟨"env", .eq, ["a"]⟩] := by decide +kernel
  have htext : canonicalSelector Locale.codePoint.compare [⟨"env", .eq, ["a"]⟩] = "env=a" := by
    decide +kernel
  rw [← htext]
  refine (keepsListing_iff Locale.codePoint.compare hcenter hconsole).1.mpr fun reqs hlists => ?_
  cases hlisted.unique (by decide) (by decide) hlists
  constructor
  · intro key
    refine (length_sortedUnique_le _).trans ?_
    by_cases hkey : "env" = key <;> simp [askedValues, asked, hkey, maxSetValues]
  · refine .inr fun key value hvalue _ req hreq hne => ?_
    by_cases hkey : "env" = key
    · simp [askedValues, asked, hkey] at hvalue hreq
      rcases hreq with rfl | rfl <;> simp [asked, hvalue]
    · simp [askedValues, asked, hkey] at hvalue

/-- The console asks for either of two environments where the selector asks for both. -/
theorem environments_merged : ∃ parsed chips,
    Tags.parseSelector "env in (dev),env in (prod)".toList = .ok parsed ∧
    parseSelector Locale.codePoint.compare "env in (dev),env in (prod)".toList = some chips ∧
    ¬ SameListing (some "env in (dev),env in (prod)".toList)
      (some (canonicalSelector Locale.codePoint.compare chips).toList) ∧
    ¬ SameListing (listQuery "env in (dev),env in (prod)".toList)
      (listQuery (rewritten Locale.codePoint.compare "env in (dev),env in (prod)".toList)) := by
  have hagree : ∀ {values : List (List String)},
      EqualitiesAgree (values.map (Requirement.isIn "env")) := by
    intro values key value value' hvalue
    obtain ⟨_, -, heq⟩ := List.mem_map.mp hvalue
    cases heq
  obtain ⟨-, hbefore⟩ := @parse_texts ([["dev"], ["prod"]].map (Requirement.isIn "env"))
    "env in (dev),env in (prod)" (by decide +kernel) (List.cons_ne_nil _ _) (by decide +kernel)
    (by decide +kernel) (by decide) (by decide) hagree
  obtain ⟨-, hafter⟩ := @parse_texts ([["dev", "prod"]].map (Requirement.isIn "env"))
    "env in (dev,prod)" (by decide +kernel) (List.cons_ne_nil _ _) (by decide +kernel)
    (by decide +kernel) (by decide) (by decide) hagree
  have hnot : ¬ SameListing (some "env in (dev),env in (prod)".toList)
      (some "env in (dev,prod)".toList) := by
    rintro ⟨before, after, hread, hread', hsame⟩
    rw [parseListSelector_ok.mpr (.inl ⟨_, hbefore, rfl⟩)] at hread
    rw [parseListSelector_ok.mpr (.inl ⟨_, hafter, rfl⟩)] at hread'
    cases hread
    cases hread'
    have hdev := hsame (SortedMap.empty.insert "env" "dev")
    rw [Bool.eq_iff_iff, retains_selectorOf hagree, retains_selectorOf hagree] at hdev
    exact absurd (hdev.mpr (by decide)) (by decide)
  refine ⟨_, [⟨"env", .isIn, ["dev", "prod"]⟩], hbefore, by decide +kernel, ?_, ?_⟩
  · have htext : canonicalSelector Locale.codePoint.compare [⟨"env", .isIn, ["dev", "prod"]⟩] =
        "env in (dev,prod)" := by decide +kernel
    rw [htext]
    exact hnot
  · have htext : rewritten Locale.codePoint.compare "env in (dev),env in (prod)".toList =
        "env in (dev,prod)".toList := by decide +kernel
    rw [sameListing_query, htext]
    exact hnot

end Novbot.Console
