import Mathlib.Logic.Function.Basic
import Novbot.Lib.Lines
import Novbot.Skills.Fetch

/-!
# Fetch tickets

The tickets of `hub.rs`, their use in `fetch_artifact` and their issue in `build_desired`.  Issuing
drops what has expired and a check drops the ticket it finds expired; what is left is told apart by
the history of the calls (`Recorded`), so that a check answers as the issue of the ticket says
(`check_ticket_ok_iff`).

Times are those that the calls read while they hold the lock of the table.
-/

namespace Novbot.Skills.Tickets

open Novbot.Package Text

/-- The hash that a ticket is for, as it is kept and as it is asked for. -/
def normalized (sha256 : String) : List Char := (trim sha256.toList).map toAsciiLowercase

structure TicketRec where
  nodeId : String
  sha256 : List Char
  expires : Nat

/-- The table of the hub. -/
abbrev Table := String → Option TicketRec

/-- `TICKET_TTL`, in nanoseconds. -/
def ticketTtl : Nat := 15 * 60 * 10 ^ 9

/-- `guard.retain(|_, rec| rec.expires > now)`. -/
def retain (now : Nat) (table : Table) : Table :=
  fun ticket => (table ticket).filter fun record => now < record.expires

/-- `issue_ticket_ttl`, with the ticket that it draws. -/
def issueTicketTtl (table : Table) (ticket nodeId sha256 : String) (ttl now : Nat) : Table :=
  Function.update (retain now table) ticket (some ⟨nodeId, normalized sha256, now + ttl⟩)

def issueTicket (table : Table) (ticket nodeId sha256 : String) (now : Nat) : Table :=
  issueTicketTtl table ticket nodeId sha256 ticketTtl now

def checkTicket (table : Table) (ticket nodeId sha256 : String) (now : Nat) :
    Except String Unit × Table :=
  match table ticket with
  | none => (.error "bad", table)
  | some record =>
    if record.expires ≤ now then (.error "expired", Function.update table ticket none)
    else if record.nodeId ≠ nodeId ∨ record.sha256 ≠ normalized sha256 then (.error "mismatch", table)
    else (.ok (), table)

/-! ## Fetching -/

structure FetchArtifactRequest where
  nodeId : String
  sha256 : String
  fetchTicket : String
  offset : Int

inductive Status where
  | permissionDenied (message : String)
  | internal (message : String)
  | notFound (message : String)
  | outOfRange (message : String)

/-- `fetch_artifact`, with what the store of artifacts answers. -/
def fetchArtifact (get : String → Except Unit (Option Bytes)) (table : Table)
    (request : FetchArtifactRequest) (now : Nat) : Except Status (List ArtifactChunk) × Table :=
  match checkTicket table request.fetchTicket request.nodeId request.sha256 now with
  | (.error _, table) => (.error (.permissionDenied "fetch ticket rejected"), table)
  | (.ok (), table) =>
    (match get (.ofList (trim request.sha256.toList)) with
      | .error () => .error (.internal "artifact lookup failed")
      | .ok none => .error (.notFound "artifact not found")
      | .ok (some bytes) => (artifactChunks bytes request.offset).mapError .outOfRange, table)

/-! ## Histories -/

inductive Call where
  | issue (ticket nodeId sha256 : String) (ttl now : Nat)
  | check (ticket nodeId sha256 : String) (now : Nat)
  | fetch (request : FetchArtifactRequest) (now : Nat)

def Call.now : Call → Nat
  | .issue _ _ _ _ now => now
  | .check _ _ _ now => now
  | .fetch _ now => now

/-- The ticket that the call draws. -/
def Call.drawn : Call → Option String
  | .issue ticket _ _ _ _ => some ticket
  | _ => none

section
variable (get : String → Except Unit (Option Bytes))

def Call.apply (table : Table) : Call → Table
  | .issue ticket nodeId sha256 ttl now => issueTicketTtl table ticket nodeId sha256 ttl now
  | .check ticket nodeId sha256 now => (checkTicket table ticket nodeId sha256 now).2
  | .fetch request now => (fetchArtifact get table request now).2

/-- The table that a history leaves. -/
def tableAfter (history : List Call) : Table := history.foldl (Call.apply get) fun _ => none

end

/-- The calls come in the order of their times, and no ticket is drawn twice. -/
structure Ordered (history : List Call) : Prop where
  times : history.Pairwise fun call next => call.now ≤ next.now
  fresh : (history.filterMap Call.drawn).Nodup

/-- The hash up to white space around it and the case of its letters. -/
def SameHash (sha256 other : String) : Prop :=
  eqIgnoreCase (trim sha256.toList) (trim other.toList) = true

/-- The ticket was issued for the node and the hash, and has not expired. -/
def Live (history : List Call) (ticket nodeId sha256 : String) (now : Nat) : Prop :=
  ∃ issuedFor ttl since, .issue ticket nodeId issuedFor ttl since ∈ history ∧
    SameHash issuedFor sha256 ∧ now < since + ttl

theorem sameHash_iff {sha256 other : String} :
    SameHash sha256 other ↔ normalized sha256 = normalized other := eqIgnoreCase_iff

/-! ## What the table records -/

/-- The table has what was issued and has not expired, and nothing that was not issued. -/
structure Recorded (history : List Call) (now : Nat) (table : Table) : Prop where
  sound : ∀ ticket record, table ticket = some record → ∃ sha256 ttl since,
    .issue ticket record.nodeId sha256 ttl since ∈ history ∧
      record.sha256 = normalized sha256 ∧ record.expires = since + ttl
  complete : ∀ ticket nodeId sha256 ttl since, .issue ticket nodeId sha256 ttl since ∈ history →
    now < since + ttl → table ticket = some ⟨nodeId, normalized sha256, since + ttl⟩

section
variable {get : String → Except Unit (Option Bytes)} {history : List Call} {table : Table} {now : Nat}

/-- What a check leaves: the table, or the table without a ticket that has expired. -/
theorem checkTicket_table (ticket nodeId sha256 : String) :
    (checkTicket table ticket nodeId sha256 now).2 = table ∨
      (checkTicket table ticket nodeId sha256 now).2 = Function.update table ticket none ∧
        ∀ record, table ticket = some record → record.expires ≤ now := by
  unfold checkTicket
  split
  · exact .inl rfl
  · next record hrecord =>
    split
    · next hexpired =>
      refine .inr ⟨rfl, fun found hfound => ?_⟩
      cases hrecord.symm.trans hfound
      exact hexpired
    · split
      · exact .inl rfl
      · exact .inl rfl

theorem fetchArtifact_table (request : FetchArtifactRequest) :
    (fetchArtifact get table request now).2 =
      (checkTicket table request.fetchTicket request.nodeId request.sha256 now).2 := by
  unfold fetchArtifact
  split
  · next h => rw [h]
  · next h => rw [h]

theorem Recorded.later {later : Nat} (h : Recorded history now table) (hlater : now ≤ later) :
    Recorded history later table :=
  ⟨h.sound, fun ticket nodeId sha256 ttl since hmem hlive =>
    h.complete ticket nodeId sha256 ttl since hmem (Nat.lt_of_le_of_lt hlater hlive)⟩

/-- A call that draws no ticket. -/
theorem Recorded.silent {call : Call} (h : Recorded history now table) (hdrawn : call.drawn = none) :
    Recorded (history ++ [call]) now table := by
  constructor
  · intro ticket record hrecord
    obtain ⟨sha256, ttl, since, hmem, hrest⟩ := h.sound ticket record hrecord
    exact ⟨sha256, ttl, since, List.mem_append_left _ hmem, hrest⟩
  · intro ticket nodeId sha256 ttl since hmem hlive
    rcases List.mem_append.mp hmem with hmem | hmem
    · exact h.complete ticket nodeId sha256 ttl since hmem hlive
    · rw [← List.mem_singleton.mp hmem] at hdrawn
      cases hdrawn

theorem Recorded.drop {ticket : String} (h : Recorded history now table)
    (hexpired : ∀ record, table ticket = some record → record.expires ≤ now) :
    Recorded history now (Function.update table ticket none) := by
  constructor
  · intro other record hrecord
    by_cases hother : other = ticket
    · rw [hother, Function.update_self] at hrecord
      cases hrecord
    · rw [Function.update_of_ne hother] at hrecord
      exact h.sound other record hrecord
  · intro other nodeId sha256 ttl since hmem hlive
    have hrecord := h.complete other nodeId sha256 ttl since hmem hlive
    by_cases hother : other = ticket
    · subst hother
      exact absurd (hexpired _ hrecord) (Nat.not_le.mpr hlive)
    · rw [Function.update_of_ne hother]
      exact hrecord

theorem Recorded.checked (h : Recorded history now table) (ticket nodeId sha256 : String) :
    Recorded history now (checkTicket table ticket nodeId sha256 now).2 := by
  rcases @checkTicket_table table now ticket nodeId sha256 with hsame | ⟨hdrop, hexpired⟩
  · rw [hsame]
    exact h
  · rw [hdrop]
    exact h.drop hexpired

theorem Recorded.issued {ticket nodeId sha256 : String} {ttl : Nat} (h : Recorded history now table)
    (hfresh : ∀ call ∈ history, call.drawn ≠ some ticket) :
    Recorded (history ++ [.issue ticket nodeId sha256 ttl now]) now
      (issueTicketTtl table ticket nodeId sha256 ttl now) := by
  constructor
  · intro other record hrecord
    by_cases hother : other = ticket
    · subst hother
      rw [issueTicketTtl, Function.update_self] at hrecord
      cases hrecord
      exact ⟨sha256, ttl, now, List.mem_append_right _ (.head _), rfl, rfl⟩
    · rw [issueTicketTtl, Function.update_of_ne hother, retain, Option.filter_eq_some_iff] at hrecord
      obtain ⟨hash, left, since, hmem, hrest⟩ := h.sound other record hrecord.1
      exact ⟨hash, left, since, List.mem_append_left _ hmem, hrest⟩
  · intro other node hash left since hmem hlive
    rcases List.mem_append.mp hmem with hmem | hmem
    · have hother : other ≠ ticket := by
        intro hsame
        exact hfresh _ hmem (congrArg some hsame)
      rw [issueTicketTtl, Function.update_of_ne hother, retain,
        h.complete other node hash left since hmem hlive, Option.filter_some, if_pos]
      exact decide_eq_true hlive
    · cases List.mem_singleton.mp hmem
      rw [issueTicketTtl, Function.update_self]

/-- One call, at the time of the call. -/
theorem Recorded.apply {call : Call} (h : Recorded history now table) (hnow : now ≤ call.now)
    (hfresh : ∀ ticket, call.drawn = some ticket → ∀ earlier ∈ history, earlier.drawn ≠ some ticket) :
    Recorded (history ++ [call]) call.now (call.apply get table) := by
  have h := h.later hnow
  cases call with
  | issue ticket nodeId sha256 ttl now => exact h.issued (hfresh ticket rfl)
  | check ticket nodeId sha256 now => exact (h.checked ticket nodeId sha256).silent rfl
  | fetch request now =>
    refine Recorded.silent ?_ rfl
    show Recorded history now (fetchArtifact get table request now).2
    rw [fetchArtifact_table]
    exact h.checked _ _ _

/-- Every history, at any time that is not before its calls. -/
theorem recorded_tableAfter (hordered : Ordered history) (hnow : ∀ call ∈ history, call.now ≤ now) :
    Recorded history now (tableAfter get history) := by
  induction history using List.reverseRecOn generalizing now with
  | nil =>
    constructor
    · intro ticket record h
      cases h
    · intro ticket nodeId sha256 ttl since hmem
      exact absurd hmem List.not_mem_nil
  | append_singleton history call ih =>
    obtain ⟨htimes, hfresh⟩ := hordered
    obtain ⟨hbefore, -, hlast⟩ := List.pairwise_append.mp htimes
    rw [List.filterMap_append] at hfresh
    obtain ⟨hnodup, -, hdisjoint⟩ := List.nodup_append.mp hfresh
    have hbound : ∀ earlier ∈ history, earlier.now ≤ call.now := fun earlier hearlier =>
      hlast earlier hearlier call (.head _)
    have hrecorded := ih ⟨hbefore, hnodup⟩ hbound
    rw [tableAfter, List.foldl_append]
    refine (hrecorded.apply le_rfl ?_).later (hnow call (List.mem_append_right _ (.head _)))
    intro ticket hdrawn earlier hearlier hsame
    refine hdisjoint ticket (List.mem_filterMap.mpr ⟨earlier, hearlier, hsame⟩) ticket ?_ rfl
    exact List.mem_filterMap.mpr ⟨call, .head _, hdrawn⟩

/-! ## What a check answers -/

theorem checkTicket_ok_iff {ticket nodeId sha256 : String} :
    (checkTicket table ticket nodeId sha256 now).1 = .ok () ↔
      ∃ record, table ticket = some record ∧ now < record.expires ∧ record.nodeId = nodeId ∧
        record.sha256 = normalized sha256 := by
  unfold checkTicket
  cases hrecord : table ticket with
  | none => simp
  | some record =>
    dsimp only
    split
    · next hexpired =>
      refine iff_of_false nofun ?_
      rintro ⟨found, hfound, hlive, -⟩
      cases hfound
      exact absurd hexpired (Nat.not_le.mpr hlive)
    · next hlive =>
      split
      · next hother =>
        refine iff_of_false nofun ?_
        rintro ⟨found, hfound, -, hnode, hhash⟩
        cases hfound
        exact hother.elim (fun h => h hnode) fun h => h hhash
      · next hsame =>
        rw [not_or, not_ne_iff, not_ne_iff] at hsame
        exact iff_of_true rfl ⟨record, rfl, Nat.lt_of_not_le hlive, hsame⟩

theorem Recorded.check_iff (h : Recorded history now table) {ticket nodeId sha256 : String} :
    (checkTicket table ticket nodeId sha256 now).1 = .ok () ↔
      Live history ticket nodeId sha256 now := by
  rw [checkTicket_ok_iff]
  constructor
  · rintro ⟨record, hrecord, hlive, rfl, hhash⟩
    obtain ⟨issuedFor, ttl, since, hmem, hsame, hexpires⟩ := h.sound ticket record hrecord
    refine ⟨issuedFor, ttl, since, hmem, ?_, ?_⟩
    · rw [sameHash_iff, ← hsame, hhash]
    · rw [← hexpires]
      exact hlive
  · rintro ⟨issuedFor, ttl, since, hmem, hsame, hlive⟩
    exact ⟨_, h.complete ticket nodeId issuedFor ttl since hmem hlive, hlive, rfl, sameHash_iff.mp hsame⟩

theorem fetchArtifact_ok {request : FetchArtifactRequest} {chunks : List ArtifactChunk}
    (h : (fetchArtifact get table request now).1 = .ok chunks) :
    (checkTicket table request.fetchTicket request.nodeId request.sha256 now).1 = .ok () ∧
      ∃ bytes, get (.ofList (trim request.sha256.toList)) = .ok (some bytes) ∧
        artifactChunks bytes request.offset = .ok chunks := by
  unfold fetchArtifact at h
  split at h
  · cases h
  · next hok =>
    rw [hok]
    refine ⟨rfl, ?_⟩
    dsimp only at h
    split at h
    · cases h
    · cases h
    · next bytes hbytes =>
      refine ⟨bytes, hbytes, ?_⟩
      cases hchunks : artifactChunks bytes request.offset with
      | error err =>
        rw [hchunks] at h
        cases h
      | ok found =>
        rw [hchunks] at h
        cases h
        rfl

end

/-- A check answers as the issue of its ticket says.  Other calls make no difference to it, and
`fetch_artifact` sends chunks only where it passes. -/
theorem checkTicket_iff_live (get : String → Except Unit (Option Bytes)) {history : List Call}
    {now : Nat} (hordered : Ordered history) (hnow : ∀ call ∈ history, call.now ≤ now)
    (ticket nodeId sha256 : String) :
    ((checkTicket (tableAfter get history) ticket nodeId sha256 now).1 = .ok () ↔
      Live history ticket nodeId sha256 now) ∧
    (∀ other : List Call, Ordered other → (∀ call ∈ other, call.now ≤ now) →
      (∀ call, call.drawn = some ticket → (call ∈ history ↔ call ∈ other)) →
      ((checkTicket (tableAfter get history) ticket nodeId sha256 now).1 = .ok () ↔
        (checkTicket (tableAfter get other) ticket nodeId sha256 now).1 = .ok ())) ∧
    ∀ request chunks, (fetchArtifact get (tableAfter get history) request now).1 = .ok chunks →
      Live history request.fetchTicket request.nodeId request.sha256 now ∧
        ∃ bytes, get (.ofList (trim request.sha256.toList)) = .ok (some bytes) ∧
          artifactChunks bytes request.offset = .ok chunks := by
  have hrecorded : Recorded history now (tableAfter get history) := recorded_tableAfter hordered hnow
  refine ⟨hrecorded.check_iff, ?_, ?_⟩
  · intro other hother hlater hsame
    rw [hrecorded.check_iff, (recorded_tableAfter hother hlater).check_iff]
    exact exists_congr fun _ => exists_congr fun _ => exists_congr fun _ =>
      and_congr (hsame _ rfl) Iff.rfl
  · intro request chunks h
    obtain ⟨hok, hbytes⟩ := fetchArtifact_ok h
    exact ⟨hrecorded.check_iff.mp hok, hbytes⟩

/-- Two tickets of a node, one of them used. -/
def twoTickets : List Call :=
  [.issue "t1" "n1" " ABC\n" 10 0, .issue "t2" "n1" "def" 3 2, .fetch ⟨"n1", "abc", "t1", 0⟩ 4,
    .check "t2" "n1" "def" 6]

theorem twoTickets_live :
    (checkTicket (tableAfter (fun _ => .ok none) twoTickets) "t1" "n1" "abc" 9).1 = .ok () :=
  ((@checkTicket_iff_live (fun _ => .ok none) twoTickets 9
    ⟨by simp [twoTickets, Call.now], by decide⟩
    (by simp [twoTickets, Call.now]) "t1" "n1" "abc").1).mpr
      ⟨" ABC\n", 10, 0, .head _, sameHash_iff.mpr (by decide), by decide⟩

/-! ## The tickets of a desired set -/

/-- A row of the desired set, and the ticket that is drawn for it. -/
structure DesiredRow where
  sha256 : String
  drawn : String
  now : Nat

structure SkillRef where
  sha256 : String
  fetchTicket : String

/-- The loop of `build_desired` over the rows. -/
def buildDesired (nodeId : String) : Table → List DesiredRow → Table × List SkillRef
  | table, [] => (table, [])
  | table, row :: rows =>
    let sha256 := String.ofList (normalized row.sha256)
    let (table', skills) :=
      buildDesired nodeId (issueTicket table row.drawn nodeId sha256 row.now) rows
    (table', ⟨sha256, row.drawn⟩ :: skills)

def DesiredRow.call (nodeId : String) (row : DesiredRow) : Call :=
  .issue row.drawn nodeId (.ofList (normalized row.sha256)) ticketTtl row.now

theorem buildDesired_eq (get : String → Except Unit (Option Bytes)) (nodeId : String)
    (rows : List DesiredRow) (table : Table) :
    buildDesired nodeId table rows =
      ((rows.map (DesiredRow.call nodeId)).foldl (Call.apply get) table,
        rows.map fun row => ⟨.ofList (normalized row.sha256), row.drawn⟩) := by
  induction rows generalizing table with
  | nil => rfl
  | cons row rows ih =>
    rw [buildDesired, ih]
    rfl

/-- The ticket of a skill is good for its package until it expires. -/
theorem live_of_buildDesired {history : List Call} {nodeId : String} {rows : List DesiredRow}
    {row : DesiredRow} (hrow : row ∈ rows) (hhistory : ∀ call ∈ rows.map (DesiredRow.call nodeId),
      call ∈ history) {now : Nat} (hnow : now < row.now + ticketTtl) :
    Live history row.drawn nodeId (.ofList (normalized row.sha256)) now :=
  ⟨_, _, _, hhistory _ (List.mem_map_of_mem hrow), sameHash_iff.mpr rfl, hnow⟩

end Novbot.Skills.Tickets
