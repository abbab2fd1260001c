import Mathlib.Data.List.Sort
import Novbot.Audit.Hash

/-!
# The chain of audit events

Each row has the hash of the row with the next smaller id (`Chained`).  Where ids grow along a list,
that is a matter of what stands in front of a row (`chained_iff`), and a row of the writers continues
the rows whose last hash it was given (`auditRow_continues`).
-/

namespace Novbot.Audit

open Text

/-- A row of `audit_events` under its id. -/
structure Entry where
  id : Nat
  row : Row

/-- `ORDER BY id`. -/
def byId (entries : List Entry) : List Entry := entries.insertionSort fun a b => a.id ≤ b.id

def rowsOf (entries : List Entry) : List Row := (byId entries).map (·.row)

/-- The ids grow along the list. -/
def Ascending (entries : List Entry) : Prop := entries.Pairwise fun a b => a.id < b.id

/-- The hash of the last row. -/
def newestHash (rows : List Row) : Option String := rows.getLast?.map (·.hash)

/-- Two rows follow the same one. -/
def Forked (entries : List Entry) : Prop :=
  ∃ a ∈ entries, ∃ b ∈ entries, a.id ≠ b.id ∧ a.row.prevHash = b.row.prevHash

section
variable (sha256Hex : List UInt8 → String)

/-- A row has the hash of the last of those before it, and that of its own fields. -/
structure Continues (rows : List Row) (row : Row) : Prop where
  prevHash : row.prevHash = newestHash rows
  hash : row.hash =
    sha256Hex (auditInput (row.prevHash.getD "") row.action row.targetId row.detailJson)

/-- The rows form one chain: each continues the rows with smaller ids. -/
def Chained (entries : List Entry) : Prop :=
  ∀ entry ∈ entries,
    Continues sha256Hex (rowsOf (entries.filter fun other => other.id < entry.id)) entry.row

/-- What the writers insert behind the hash that they found. -/
def auditRow (prev : String) (request : Request) : Row where
  prevHash := if prev = "" then none else some prev
  action := request.action.name
  targetId := request.targetId
  detailJson := request.detailJson
  hash := sha256Hex (auditInput prev request.action.name request.targetId request.detailJson)

/-- The digests that `sha256_hex` prints. -/
structure Prints : Prop where
  hex : ∀ bytes, IsHash (sha256Hex bytes)
  ne : ∀ bytes, sha256Hex bytes ≠ ""

end

section
variable {sha256Hex : List UInt8 → String} {entries before after : List Entry} {entry : Entry}
  {rows : List Row}

theorem Ascending.rowsOf (h : Ascending entries) : rowsOf entries = entries.map (·.row) := by
  have hle : entries.Pairwise fun a b => a.id ≤ b.id := h.imp fun hlt => Nat.le_of_lt hlt
  rw [Audit.rowsOf, byId, hle.insertionSort_eq]

/-- What has a smaller id stands in front. -/
theorem Ascending.filter_lt (h : Ascending (before ++ entry :: after)) :
    (before ++ entry :: after).filter (fun other => other.id < entry.id) = before := by
  obtain ⟨-, hafter, hbefore⟩ := List.pairwise_append.mp h
  have hkept : before.filter (fun other => other.id < entry.id) = before :=
    List.filter_eq_self.mpr fun other hother =>
      decide_eq_true (hbefore other hother entry (.head _))
  have hdropped : (entry :: after).filter (fun other => other.id < entry.id) = [] := by
    refine List.filter_eq_nil_iff.mpr fun other hother => ?_
    rw [decide_eq_true_eq, not_lt]
    rcases List.mem_cons.mp hother with rfl | hother
    · exact le_refl _
    · exact Nat.le_of_lt ((List.pairwise_cons.mp hafter).1 other hother)
  rw [List.filter_append, hkept, hdropped, List.append_nil]

theorem Ascending.left (h : Ascending (before ++ after)) : Ascending before :=
  (List.pairwise_append.mp h).1

/-- In ascending rows each continues what stands in front of it. -/
theorem chained_iff (h : Ascending entries) : Chained sha256Hex entries ↔
    ∀ before entry after, entries = before ++ entry :: after →
      Continues sha256Hex (before.map (·.row)) entry.row := by
  constructor
  · intro hchained before entry after hsplit
    subst hsplit
    have hentry := hchained entry (List.mem_append_right _ (.head _))
    rw [h.filter_lt, h.left.rowsOf] at hentry
    exact hentry
  · intro hall entry hentry
    obtain ⟨before, after, hsplit⟩ := List.append_of_mem hentry
    subst hsplit
    rw [h.filter_lt, h.left.rowsOf]
    exact hall before entry after rfl

theorem chained_nil : Chained sha256Hex [] := fun _ hentry => absurd hentry List.not_mem_nil

/-- A row at the end that continues the others. -/
theorem chained_append (h : Ascending (entries ++ [entry])) (hchained : Chained sha256Hex entries)
    (hentry : Continues sha256Hex (entries.map (·.row)) entry.row) :
    Chained sha256Hex (entries ++ [entry]) := by
  rw [chained_iff h]
  intro before other after hsplit
  rcases List.eq_nil_or_concat after with rfl | ⟨after, last, rfl⟩
  · obtain ⟨rfl, heq⟩ := List.append_inj' hsplit rfl
    rw [← (List.cons.inj heq).1]
    exact hentry
  · have hconcat : entries ++ [entry] = (before ++ other :: after) ++ [last] := by
      simpa using hsplit
    have hfront := (List.append_inj' hconcat rfl).1
    exact (chained_iff h.left).mp hchained before other after hfront

/-- Every row of a chain has a digest. -/
theorem Chained.digest (h : Chained sha256Hex entries) :
    ∀ row ∈ entries.map (·.row), ∃ bytes, row.hash = sha256Hex bytes := by
  intro row hrow
  obtain ⟨entry, hentry, rfl⟩ := List.mem_map.mp hrow
  exact ⟨_, (h entry hentry).hash⟩

/-! ## What the writers insert -/

theorem not_isWhiteSpace_of_hex {c : Char} (h : isHex c = true) : isWhiteSpace c = false := by
  simp only [isHex, isAsciiDigit, Bool.or_eq_true, Bool.and_eq_true, decide_eq_true_eq, Char.le_def,
    UInt32.le_iff_toNat_le] at h
  rw [Bool.eq_false_iff]
  intro hspace
  simp [isWhiteSpace] at hspace h
  omega

/-- The hash that a writer finds. -/
theorem lastHash_eq (hsha : Prints sha256Hex) (trims : Bool)
    (h : ∀ row ∈ rows, ∃ bytes, row.hash = sha256Hex bytes) :
    lastHash trims rows = (newestHash rows).getD "" := by
  have hhex : IsHash ((newestHash rows).getD "") := by
    rw [newestHash]
    cases hrow : rows.getLast? with
    | none => exact fun c hc => absurd hc List.not_mem_nil
    | some row =>
      obtain ⟨bytes, hhash⟩ := h row (List.mem_of_getLast? hrow)
      rw [Option.map_some, Option.getD_some, hhash]
      exact hsha.hex bytes
  cases trims with
  | false => rfl
  | true =>
    show String.ofList (trim ((newestHash rows).getD "").toList) = _
    rw [trim_word fun c hc => not_isWhiteSpace_of_hex (hhex c hc), String.ofList_toList]

/-- A row that is inserted behind the last hash of the rows continues them. -/
theorem auditRow_continues (hsha : Prints sha256Hex)
    (h : ∀ row ∈ rows, ∃ bytes, row.hash = sha256Hex bytes) (request : Request) :
    Continues sha256Hex rows (auditRow sha256Hex ((newestHash rows).getD "") request) := by
  have hprev : (auditRow sha256Hex ((newestHash rows).getD "") request).prevHash = newestHash rows := by
    cases hrow : rows.getLast? with
    | none => simp [auditRow, newestHash, hrow]
    | some row =>
      obtain ⟨bytes, hhash⟩ := h row (List.mem_of_getLast? hrow)
      have hne := hsha.ne bytes
      simp [auditRow, newestHash, hrow, hhash, hne]
  refine ⟨hprev, ?_⟩
  rw [hprev]
  rfl

end

end Novbot.Audit
