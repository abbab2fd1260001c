import Mathlib.Data.List.Forall2
import Mathlib.Data.List.Infix

/-!
# Globs

A glob is a list of pieces: `run` stands for any run of letters, `one item` for one letter
that `item` fits.  What an item fits is a parameter, so the same relation serves letters
of a word and words of a path.

`matches_run_iff` turns a run into a search over the ends of the text, which is what a
backtracking matcher does.
-/

namespace Glob

inductive Piece (β : Type*) where
  | run
  | one (item : β)
  deriving DecidableEq, Repr

section
variable {α β : Type*} (fits : β → α → Prop)

/-- `pattern` cuts the text into the runs and the letters that its pieces stand for. -/
inductive Matches : List (Piece β) → List α → Prop where
  | nil : Matches [] []
  | run (skipped : List α) {pattern : List (Piece β)} {text : List α} :
    Matches pattern text → Matches (.run :: pattern) (skipped ++ text)
  | one {item : β} {a : α} {pattern : List (Piece β)} {text : List α} :
    fits item a → Matches pattern text → Matches (.one item :: pattern) (a :: text)

variable {fits} {pattern : List (Piece β)} {text : List α}

@[simp] theorem matches_nil_iff : Matches fits [] text ↔ text = [] := by
  constructor
  · intro h
    cases h
    rfl
  · rintro rfl
    exact .nil

theorem matches_run_iff :
    Matches fits (.run :: pattern) text ↔ ∃ rest, rest <:+ text ∧ Matches fits pattern rest := by
  constructor
  · intro h
    cases h with
    | run skipped hrest => exact ⟨_, List.suffix_append .., hrest⟩
  · rintro ⟨rest, ⟨skipped, rfl⟩, hrest⟩
    exact .run skipped hrest

theorem matches_one_iff {item : β} :
    Matches fits (.one item :: pattern) text ↔
      ∃ a rest, text = a :: rest ∧ fits item a ∧ Matches fits pattern rest := by
  constructor
  · intro h
    cases h with
    | one ha hrest => exact ⟨_, _, rfl, ha, hrest⟩
  · rintro ⟨a, rest, rfl, ha, hrest⟩
    exact .one ha hrest

/-- A final run takes what is left. -/
theorem matches_run_all : Matches fits [.run] text := by
  rw [← List.append_nil text]
  exact .run text .nil

/-- Two runs in a row stand for one. -/
theorem matches_run_run :
    Matches fits (.run :: .run :: pattern) text ↔ Matches fits (.run :: pattern) text := by
  constructor
  · intro h
    obtain ⟨inner, hinner, h⟩ := matches_run_iff.mp h
    obtain ⟨rest, hrest, h⟩ := matches_run_iff.mp h
    exact matches_run_iff.mpr ⟨rest, hrest.trans hinner, h⟩
  · exact .run []

/-- Items that each fit their letter go in front of a glob. -/
theorem Matches.prepend {items : List β} {front : List α} (hitems : List.Forall₂ fits items front)
    (h : Matches fits pattern text) :
    Matches fits (items.map .one ++ pattern) (front ++ text) := by
  induction hitems with
  | nil => exact h
  | cons ha _ ih => exact .one ha ih

/-- Items in front of a glob fit a front of the text of their number. -/
theorem Matches.of_prepend {items : List β} (h : Matches fits (items.map .one ++ pattern) text) :
    ∃ front rest, text = front ++ rest ∧ List.Forall₂ fits items front ∧
      Matches fits pattern rest := by
  induction items generalizing text with
  | nil => exact ⟨[], text, rfl, .nil, h⟩
  | cons item items ih =>
    obtain ⟨a, tail, rfl, ha, h⟩ := matches_one_iff.mp h
    obtain ⟨front, rest, rfl, hfront, hrest⟩ := ih h
    exact ⟨a :: front, rest, rfl, .cons ha hfront, hrest⟩

theorem Matches.append {more : List (Piece β)} {rest : List α} (h : Matches fits pattern text)
    (hmore : Matches fits more rest) : Matches fits (pattern ++ more) (text ++ rest) := by
  induction h with
  | nil => exact hmore
  | run skipped _ ih =>
    rw [List.append_assoc]
    exact .run skipped ih
  | one ha _ ih => exact .one ha ih

/-- A text with one letter for each piece. -/
theorem Matches.pointwise
    (h : List.Forall₂ (fun piece a => ∀ item, piece = Piece.one item → fits item a) pattern text) :
    Matches fits pattern text := by
  induction h with
  | nil => exact .nil
  | @cons piece a _ _ ha _ ih =>
    cases piece with
    | run => exact .run [a] ih
    | one item => exact .one (ha item rfl) ih

def Piece.isOne : Piece β → Bool
  | .run => false
  | .one _ => true

/-- A glob has no more items than a text that it matches has letters. -/
theorem Matches.countP_le (h : Matches fits pattern text) :
    pattern.countP Piece.isOne ≤ text.length := by
  induction h with
  | nil => exact Nat.le_refl _
  | run skipped _ ih =>
    rw [List.countP_cons_of_neg (by simp [Piece.isOne]), List.length_append]
    exact Nat.le_add_left_of_le ih
  | one _ _ ih =>
    rw [List.countP_cons_of_pos rfl, List.length_cons]
    exact Nat.succ_le_succ ih

/-- Only the items of the pattern and the letters of the text matter. -/
theorem Matches.congr {fits' : β → α → Prop}
    (hfits : ∀ item, .one item ∈ pattern → ∀ a ∈ text, fits item a → fits' item a)
    (h : Matches fits pattern text) : Matches fits' pattern text := by
  induction h with
  | nil => exact .nil
  | run skipped _ ih =>
    refine .run skipped (ih ?_)
    intro item hitem a ha
    exact hfits item (List.mem_cons_of_mem _ hitem) a (List.mem_append_right _ ha)
  | one ha _ ih =>
    refine .one (hfits _ List.mem_cons_self _ List.mem_cons_self ha) (ih ?_)
    intro item hitem a ha
    exact hfits item (List.mem_cons_of_mem _ hitem) a (List.mem_cons_of_mem _ ha)

/-- What a backtracking matcher searches after a run. -/
theorem search_iff (search rest : List α → Bool) (hnil : search [] = rest [])
    (hcons : ∀ a text, search (a :: text) = (rest (a :: text) || search text)) :
    search text = true ↔ ∃ tail, tail <:+ text ∧ rest tail = true := by
  induction text with
  | nil => simp [hnil]
  | cons a text ih =>
    rw [hcons, Bool.or_eq_true, ih]
    constructor
    · rintro (h | ⟨tail, htail, h⟩)
      · exact ⟨_, List.suffix_refl _, h⟩
      · exact ⟨tail, List.suffix_cons_iff.mpr (.inr htail), h⟩
    · rintro ⟨tail, htail, h⟩
      rcases List.suffix_cons_iff.mp htail with rfl | htail
      · exact .inl h
      · exact .inr ⟨tail, htail, h⟩

end

/-! ## Letters -/

/-- An item of a word: a letter, or a place for any. -/
def Fits {α : Type*} : Option α → α → Prop
  | none, _ => True
  | some literal, a => literal = a

theorem forall₂_fits {α : Type*} {literals text : List α} :
    List.Forall₂ Fits (literals.map some) text ↔ literals = text := by
  rw [List.forall₂_map_left_iff]
  show List.Forall₂ Eq literals text ↔ literals = text
  rw [List.forall₂_eq_eq_eq]

end Glob
