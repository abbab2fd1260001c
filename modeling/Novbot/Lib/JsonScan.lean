import Novbot.Lib.Text

/-!
# The outline of a JSON object

A scan of a JSON text follows its strings and counts its braces.  It finds the end of the object
that the text begins with, and it dies behind that end, or behind a string that is followed by
neither a delimiter nor white space.  What a torn object is glued to does not close it again
(`stuck_append`).
-/

namespace JsonScan

open Text

inductive Mode where
  | out
  /-- Behind a string. -/
  | after
  | inside
  /-- Behind a backslash. -/
  | escape
  deriving DecidableEq

inductive Scan where
  | start
  /-- Within an object, which is within `depth` others. -/
  | within (depth : Nat) (mode : Mode)
  | closed
  | dead
  deriving DecidableEq

def isDelimiter (c : Char) : Bool := c == '}' || c == ':' || c == ',' || c == ']' || isWhiteSpace c

def leave : Nat → Scan
  | 0 => .closed
  | depth + 1 => .within depth .out

def step : Scan → Char → Scan
  | .start, c => if c = '{' then .within 0 .out else .dead
  | .within depth .out, c =>
    if c = '{' then .within (depth + 1) .out
    else if c = '}' then leave depth
    else if c = '"' then .within depth .inside
    else .within depth .out
  | .within depth .after, c =>
    if c = '}' then leave depth
    else if isDelimiter c then .within depth .out
    else .dead
  | .within depth .inside, c =>
    if c = '"' then .within depth .after
    else if c = '\\' then .within depth .escape
    else .within depth .inside
  | .within depth .escape, _ => .within depth .inside
  | .closed, c => if isWhiteSpace c then .closed else .dead
  | .dead, _ => .dead

def scan (s : Scan) (text : List Char) : Scan := text.foldl step s

/-- The text is one object, and white space behind it. -/
def Closes (text : List Char) : Prop := scan .start text = .closed

/-- The text is within an object, or no JSON. -/
def Stuck : Scan → Prop
  | .within _ _ => True
  | .dead => True
  | _ => False

/-- A text that begins with an object and a key. -/
def Begins (text : List Char) : Prop :=
  ∃ c rest, text = '{' :: '"' :: c :: rest ∧ isDelimiter c = false

/-! ## Runs -/

section

variable {s : Scan} {c : Char} {text more : List Char}

theorem scan_append (s : Scan) (text more : List Char) :
    scan s (text ++ more) = scan (scan s text) more := List.foldl_append

theorem scan_dead (text : List Char) : scan .dead text = .dead := by
  induction text with
  | nil => rfl
  | cons c text ih => exact ih

theorem step_ne_start (s : Scan) (c : Char) : step s c ≠ .start := by
  have hleave : ∀ depth, leave depth ≠ .start := by
    intro depth h
    cases depth with
    | zero => cases h
    | succ depth => cases h
  intro h
  cases s with
  | start =>
    rw [step] at h
    split at h
    · cases h
    · cases h
  | within depth mode =>
    cases mode with
    | out =>
      rw [step] at h
      split at h
      · cases h
      · split at h
        · exact hleave depth h
        · split at h
          · cases h
          · cases h
    | after =>
      rw [step] at h
      split at h
      · exact hleave depth h
      · split at h
        · cases h
        · cases h
    | inside =>
      rw [step] at h
      split at h
      · cases h
      · split at h
        · cases h
        · cases h
    | escape => cases h
  | closed =>
    rw [step] at h
    split at h
    · cases h
    · cases h
  | dead => cases h

theorem scan_ne_start (hs : s ≠ .start) (text : List Char) : scan s text ≠ .start := by
  induction text generalizing s with
  | nil => exact hs
  | cons c text ih => exact ih (step_ne_start s c)

theorem ne_dead_of_append (h : scan s (text ++ more) ≠ .dead) : scan s text ≠ .dead := by
  intro hdead
  rw [scan_append, hdead, scan_dead] at h
  exact h rfl

theorem scan_white (h : ∀ c ∈ text, isWhiteSpace c = true) : scan .closed text = .closed := by
  induction text with
  | nil => rfl
  | cons c text ih =>
    have hstep : step .closed c = .closed := by rw [step, h c List.mem_cons_self, if_pos rfl]
    show scan (step .closed c) text = .closed
    rw [hstep]
    exact ih fun d hd => h d (.tail _ hd)

theorem scan_closed_cases (text : List Char) :
    scan .closed text = .closed ∨ scan .closed text = .dead := by
  induction text with
  | nil => exact .inl rfl
  | cons c text ih =>
    show scan (step .closed c) text = .closed ∨ scan (step .closed c) text = .dead
    rw [step]
    split
    · exact ih
    · exact .inr (scan_dead text)

/-- Behind the end of the object is white space. -/
theorem not_closed_of_more (h : scan .start (text ++ c :: more) ≠ .dead)
    (hc : isWhiteSpace c = false) : scan .start text ≠ .closed := by
  intro hclosed
  have hdead : step .closed c = .dead := by rw [step, hc, if_neg Bool.false_ne_true]
  have hscan : scan .start (text ++ c :: more) = scan (step .closed c) more := by
    rw [scan_append, hclosed]
    rfl
  rw [hscan, hdead, scan_dead] at h
  exact h rfl

/-- An object that ends with a character closes there. -/
theorem not_closed_of_init {init : List Char} (h : Closes (init ++ [c]))
    (hc : isWhiteSpace c = false) (hbegun : text <+: init) : scan .start text ≠ .closed := by
  obtain ⟨rest, rfl⟩ := hbegun
  have halive : scan .start (text ++ rest ++ [c]) ≠ .dead := by
    rw [h]
    exact fun hdead => by cases hdead
  intro hclosed
  have hinit : scan .start (text ++ rest) = scan .closed rest := by rw [scan_append, hclosed]
  rcases scan_closed_cases rest with hrest | hrest
  · exact not_closed_of_more halive hc (hinit.trans hrest)
  · exact ne_dead_of_append halive (hinit.trans hrest)

/-- A text that begins and has not closed is stuck. -/
theorem stuck_of_not_closed (hne : text ≠ []) (hclosed : scan .start text ≠ .closed) :
    Stuck (scan .start text) := by
  cases text with
  | nil => exact absurd rfl hne
  | cons c text =>
    have hstart : scan .start (c :: text) ≠ .start := scan_ne_start (step_ne_start .start c) text
    cases hscan : scan .start (c :: text) with
    | start => exact absurd hscan hstart
    | within depth mode => trivial
    | closed => exact absurd hscan hclosed
    | dead => trivial

/-! ## Texts within texts -/

/-- The scan of a text within another. -/
def deep (depth : Nat) : Scan → Scan
  | .start => .start
  | .within inner mode => .within (inner + (depth + 1)) mode
  | .closed => .within depth .out
  | .dead => .dead

theorem deep_leave (depth inner : Nat) : leave (inner + (depth + 1)) = deep depth (leave inner) := by
  cases inner with
  | zero =>
    rw [Nat.zero_add]
    rfl
  | succ inner => rw [leave, deep, Nat.add_right_comm, leave]

theorem step_deep (depth : Nat) (hs : s ≠ .start) (h : step s c ≠ .dead) :
    step (deep depth s) c = deep depth (step s c) := by
  cases s with
  | start => exact absurd rfl hs
  | within inner mode =>
    cases mode with
    | out =>
      rw [deep, step, step]
      split
      · rw [deep, Nat.add_right_comm]
      · split
        · exact deep_leave depth inner
        · split
          · rfl
          · rfl
    | after =>
      rw [deep, step, step]
      split
      · exact deep_leave depth inner
      · split
        · rfl
        · rfl
    | inside =>
      rw [deep, step, step]
      split
      · rfl
      · split
        · rfl
        · rfl
    | escape => rfl
  | closed =>
    have hwhite : isWhiteSpace c = true := by
      by_contra hc
      rw [step, if_neg hc] at h
      exact h rfl
    have hbrace : c ≠ '{' := by
      rintro rfl
      cases hwhite
    have hend : c ≠ '}' := by
      rintro rfl
      cases hwhite
    have hquote : c ≠ '"' := by
      rintro rfl
      cases hwhite
    rw [deep, step, step, if_neg hbrace, if_neg hend, if_neg hquote, if_pos hwhite, deep]
  | dead => rfl

theorem scan_deep (depth : Nat) (hs : s ≠ .start) (h : scan s text ≠ .dead) :
    scan (deep depth s) text = deep depth (scan s text) := by
  induction text generalizing s with
  | nil => rfl
  | cons c text ih =>
    have hstep : step s c ≠ .dead := by
      intro hdead
      have hscan : scan s (c :: text) = scan (step s c) text := rfl
      rw [hscan, hdead, scan_dead] at h
      exact h rfl
    show scan (step (deep depth s) c) text = deep depth (scan (step s c) text)
    rw [step_deep depth hs hstep]
    exact ih (step_ne_start s c) h

theorem stuck_deep (depth : Nat) (hs : s ≠ .start) : Stuck (deep depth s) := by
  cases s with
  | start => exact absurd rfl hs
  | within inner mode => trivial
  | closed => trivial
  | dead => trivial

/-- Behind a stuck text, the beginning of an object leaves it stuck. -/
theorem stuck_append {begun : List Char} (hs : Stuck s) (hbegins : Begins text)
    (hbegun : begun <+: text) (hscan : scan .start begun ≠ .dead) : Stuck (scan s begun) := by
  obtain ⟨key, rest, rfl, hkey⟩ := hbegins
  cases begun with
  | nil => exact hs
  | cons c begun =>
    obtain ⟨rfl, hinner⟩ := List.cons_prefix_cons.mp hbegun
    clear hbegun
    have hstuck : ∀ {s}, step s '{' = .dead → Stuck (scan s ('{' :: begun)) := by
      intro s hdead
      show Stuck (scan (step s '{') begun)
      rw [hdead, scan_dead]
      trivial
    -- within a string the brace is text, and the quote closes the string
    have hinside : ∀ depth, Stuck (scan (.within depth .inside) begun) := by
      intro depth
      cases begun with
      | nil => trivial
      | cons quote begun =>
        obtain ⟨rfl, hlast⟩ := List.cons_prefix_cons.mp hinner
        cases begun with
        | nil => trivial
        | cons letter begun =>
          obtain ⟨rfl, -⟩ := List.cons_prefix_cons.mp hlast
          have hend : letter ≠ '}' := by
            rintro rfl
            cases hkey
          have hdead : step (.within depth .after) letter = .dead := by
            rw [step, if_neg hend, hkey, if_neg Bool.false_ne_true]
          show Stuck (scan (step (.within depth .after) letter) begun)
          rw [hdead, scan_dead]
          trivial
    cases s with
    | start => exact hs.elim
    | within depth mode =>
      cases mode with
      | out =>
        have hbody : scan (.within 0 .out) begun ≠ .dead := hscan
        have hdeep := scan_deep depth (fun h => by cases h) hbody
        have hnested : scan (.within depth .out) ('{' :: begun) =
            deep depth (scan (.within 0 .out) begun) := by
          rw [← hdeep, deep, Nat.zero_add]
          rfl
        rw [hnested]
        exact stuck_deep depth (scan_ne_start (fun h => by cases h) begun)
      | after => exact hstuck rfl
      | inside => exact hinside depth
      | escape => exact hinside depth
    | closed => exact hs.elim
    | dead => exact hstuck rfl

/-- Behind an object, the beginning of another is no JSON. -/
theorem stuck_closed {begun : List Char} (hbegins : Begins text) (hbegun : begun <+: text)
    (hne : begun ≠ []) : Stuck (scan .closed begun) := by
  obtain ⟨key, rest, rfl, -⟩ := hbegins
  cases begun with
  | nil => exact absurd rfl hne
  | cons c begun =>
    obtain ⟨rfl, -⟩ := List.cons_prefix_cons.mp hbegun
    show Stuck (scan .dead begun)
    rw [scan_dead]
    trivial

end

end JsonScan
