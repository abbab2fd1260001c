import Novbot.Lib.Machine
import Novbot.Skills.Reported

/-!
# Denial events

`store_reported_result` of `novbot-center/src/skill_desired.rs`, for any number of sessions.  The
result is inserted on its own.  Its event is appended in a transaction of its own, which takes the
lock of the audit chain before it looks for an earlier event.

The lock keeps the events of a run apart, however the sessions interleave.  A failure between the
two transactions leaves a result without its event (`denials_logged_iff`).
-/

namespace Novbot.Skills.Denials

open Concurrent

/-! ## The code -/

inductive Op where
  | insertResult (row : StoredResult)
  | begin
  | lockAuditChain
  | denialAlreadyStored (nodeId runId : String)
  | appendNodeAudit (event : NodeAudit)
  | commit

@[reducible] def Op.Reply : Op → Type
  | .denialAlreadyStored _ _ => Option Bool
  | _ => Bool

/-- The reply of an operation that fails. -/
def Op.failed : (op : Op) → op.Reply
  | .insertResult _ => false
  | .begin => false
  | .lockAuditChain => false
  | .denialAlreadyStored _ _ => none
  | .appendNodeAudit _ => false
  | .commit => false

abbrev Prog (α : Type) := Program Op.Reply α

def call (op : Op) : Prog op.Reply := Program.call op

variable (codec : Json.Codec)

/-- Appends the event in a transaction that is open, unless the run has one. -/
def appendDenial (row : StoredResult) (event : NodeAudit) : Prog Bool := do
  match ← call (.denialAlreadyStored row.nodeId row.runId) with
  | none => return false
  | some true => call .commit
  | some false =>
    if ← call (.appendNodeAudit event) then call .commit
    else return false

def storeReportedResult (row : StoredResult) : Prog Bool := do
  if ← call (.insertResult row) then
    match denialAuditDetail codec row.runId row.specId row.payloadJson with
    | none => return true
    | some (targetId, detail) =>
      if ← call .begin then
        if ← call .lockAuditChain then
          appendDenial row ⟨row.nodeId, deniedAction, targetId, detail⟩
        else return false
      else return false
  else return false

/-! ## The center and its sessions -/

structure Center where
  results : List StoredResult
  /-- The committed events. -/
  audit : List NodeAudit
  /-- The session that holds the lock of the chain. -/
  chain : Option Nat
  /-- What its transaction appended. -/
  staged : List NodeAudit

/-- The transaction of a session ends without effect. -/
def Center.rollback (t : Nat) (center : Center) : Center :=
  if center.chain = some t then { center with
    chain := none
    staged := [] }
  else center

/-- Where a session is in a report with denials. -/
inductive Loc where
  | free
  | owing (row : StoredResult)
  | locked (row : StoredResult)
  | settled (row : StoredResult)
  | fresh (row : StoredResult)
  | appended (row : StoredResult)

/-- The stored result whose event is on its way. -/
def Loc.row : Loc → Option StoredResult
  | .free => none
  | .owing row | .locked row | .settled row | .fresh row | .appended row => some row

/-- An operation succeeds, or fails and ends the transaction. -/
def exec (t : Nat) (op : Op) (fails : Bool) (center : Center) : Option (op.Reply × Center) :=
  if fails then some (op.failed, center.rollback t)
  else
    match op with
    | .insertResult row => some (true, { center with results := center.results ++ [row] })
    | .begin => some (true, center)
    | .lockAuditChain =>
      if center.chain = none then some (true, { center with chain := some t }) else none
    | .denialAlreadyStored nodeId runId =>
      some (some (denialAlreadyStored (center.audit ++ center.staged) nodeId runId), center)
    | .appendNodeAudit event => some (true, { center with staged := center.staged ++ [event] })
    | .commit => some (true, { center with
        audit := center.audit ++ center.staged
        chain := none
        staged := [] })

/-- The event of a stored result with denials. -/
def eventOf (row : StoredResult) : Option NodeAudit :=
  (denialAuditDetail codec row.runId row.specId row.payloadJson).map fun (targetId, detail) =>
    ⟨row.nodeId, deniedAction, targetId, detail⟩

def note (op : Op) (reply : op.Reply) (loc : Loc) : Loc :=
  match op, reply, loc with
  | .insertResult row, true, _ => if (eventOf codec row).isSome then .owing row else .free
  | .begin, true, loc => loc
  | .lockAuditChain, true, .owing row => .locked row
  | .denialAlreadyStored _ _, some true, .locked row => .settled row
  | .denialAlreadyStored _ _, some false, .locked row => .fresh row
  | .appendNodeAudit _, true, .fresh row => .appended row
  | _, _, _ => .free

inductive Event where
  /-- A session gets a report. -/
  | receive (t : Nat) (row : StoredResult)
  /-- A session ends where it is, as all do when the center stops. -/
  | stop (t : Nat)
  /-- Another event is appended to the audit log. -/
  | other (event : NodeAudit)

abbrev System := Sys Op.Reply Nat Loc Center

def fire : Event → System → Option System
  | .receive t row, sys =>
    if sys.idle t then
      let prog : Prog Unit := do
        let _accepted ← storeReportedResult codec row
      some { sys with threads := Function.update sys.threads t ⟨prog, .free⟩ }
    else none
  | .stop t, sys =>
    some ⟨sys.shared.rollback t, Function.update sys.threads t ⟨.done (), .free⟩⟩
  | .other event, sys =>
    if event.action = deniedAction then none
    else some { sys with shared := { sys.shared with audit := sys.shared.audit ++ [event] } }

def machine : Machine Op.Reply Nat Loc Center Bool Event where
  exec t _ op fails center := exec t op fails center
  note _ := note codec
  fire := fire codec

def initial : System where
  shared := ⟨[], [], none, []⟩
  threads _ := ⟨.done (), .free⟩

/-! ## What a session does next -/

def mayPerform (op : Op) (loc : Loc) : Prop :=
  match op with
  | .insertResult _ => loc = .free
  | .begin => ∃ row, loc = .owing row
  | .lockAuditChain => ∃ row, loc = .owing row
  | .denialAlreadyStored nodeId runId => ∃ row, loc = .locked row ∧ row.nodeId = nodeId ∧ row.runId = runId
  | .appendNodeAudit event => ∃ row, loc = .fresh row ∧ eventOf codec row = some event
  | .commit => ∃ row, loc = .settled row ∨ loc = .appended row

def terms : Machine.Terms Op.Reply Nat Loc where
  pre _ op loc := mayPerform codec op loc
  gives _ _ _ _ := True
  rest _ loc := loc = .free

abbrev meets {α : Type} (prog : Prog α) (post : α → Loc → Prop) (loc : Loc) : Prop :=
  prog.Meets ⟨mayPerform codec, fun _ _ _ => True, note codec⟩ post loc

variable {codec}

theorem note_failed (op : Op) (loc : Loc) : note codec op op.failed loc = .free := by
  cases op <;> rfl

theorem commit_meets {row : StoredResult} {loc : Loc} (h : loc = .settled row ∨ loc = .appended row) :
    meets codec (call .commit) (fun _ loc' => loc' = .free) loc := by
  refine ⟨⟨row, h⟩, fun reply _ => ?_⟩
  cases reply <;> rfl

theorem appendDenial_meets {row : StoredResult} {event : NodeAudit}
    (h : eventOf codec row = some event) :
    meets codec (appendDenial row event) (fun _ loc' => loc' = .free) (.locked row) := by
  refine ⟨⟨row, rfl, rfl, rfl⟩, fun found _ => ?_⟩
  match found with
  | none => exact rfl
  | some true => exact commit_meets (.inl rfl)
  | some false =>
    refine ⟨⟨row, rfl, h⟩, fun placed _ => ?_⟩
    cases placed with
    | false => exact rfl
    | true => exact commit_meets (.inr rfl)

theorem storeReportedResult_meets (row : StoredResult) :
    meets codec (storeReportedResult codec row) (fun _ loc' => loc' = .free) .free := by
  refine ⟨rfl, fun inserted _ => ?_⟩
  cases inserted with
  | false => exact rfl
  | true =>
    cases hdetail : denialAuditDetail codec row.runId row.specId row.payloadJson with
    | none =>
      have hnone : eventOf codec row = none := by rw [eventOf, hdetail]; rfl
      show note codec (.insertResult row) true .free = .free
      rw [note, hnone]
      rfl
    | some detail =>
      have hevent : eventOf codec row = some ⟨row.nodeId, deniedAction, detail.1, detail.2⟩ := by
        rw [eventOf, hdetail]
        rfl
      have hloc : note codec (.insertResult row) true .free = .owing row := by
        rw [note, hevent]
        rfl
      show meets codec _ _ (note codec (.insertResult row) true .free)
      rw [hloc]
      refine ⟨⟨row, rfl⟩, fun begun _ => ?_⟩
      cases begun with
      | false => exact rfl
      | true =>
        refine ⟨⟨row, rfl⟩, fun locked _ => ?_⟩
        cases locked with
        | false => exact rfl
        | true => exact appendDenial_meets hevent

theorem machine_obeys : (machine codec).Obeys (terms codec) where
  exec _ _ _ _ _ _ _ _ _ := trivial
  fire e sys sys' hsound h := by
    cases e with
    | receive t row =>
      simp only [machine, fire] at h
      split at h
      · cases h
        refine hsound.update ?_ _
        exact (storeReportedResult_meets row).bind fun _ _ hloc => hloc
      · cases h
    | stop t =>
      cases h
      refine hsound.update ?_ _
      exact rfl
    | other event =>
      simp only [machine, fire] at h
      split at h
      · cases h
      · cases h
        exact hsound

theorem initial_sound : (machine codec).Sound (terms codec) initial := fun _ => rfl

/-! ## Events of a run -/

/-- An event for the denials of a run. -/
def isDenial (nodeId runId : String) (event : NodeAudit) : Bool :=
  event.action = deniedAction && event.nodeId = nodeId &&
    (event.detail.get "run_id").bind Json.asStr = some runId

/-- The run of a result has its event. -/
def Logged (audit : List NodeAudit) (row : StoredResult) : Prop :=
  denialAlreadyStored audit row.nodeId row.runId = true

def SameRun (row other : StoredResult) : Prop := row.nodeId = other.nodeId ∧ row.runId = other.runId

variable {audit more : List NodeAudit} {row other : StoredResult} {event : NodeAudit}

theorem isDenial_eventOf (h : eventOf codec row = some event) {nodeId runId : String} :
    isDenial nodeId runId event = true ↔ row.nodeId = nodeId ∧ row.runId = runId := by
  obtain ⟨⟨targetId, detail⟩, hdetail, rfl⟩ := Option.map_eq_some_iff.mp h
  have hrun : (detail.get "run_id").bind Json.asStr = some row.runId := by
    unfold denialAuditDetail at hdetail
    obtain ⟨payload, -, hdetail⟩ := Option.bind_eq_some_iff.mp hdetail
    obtain ⟨denials, -, hdetail⟩ := Option.bind_eq_some_iff.mp hdetail
    split at hdetail
    · cases hdetail
    · cases hdetail
      rw [detailJson]
      split <;> simp [SortedMap.lookup_insert, Json.asStr]
  simp only [isDenial, hrun, decide_true, Bool.true_and, Bool.and_eq_true, decide_eq_true_eq,
    Option.some.injEq]

theorem logged_iff : Logged audit row ↔ ∃ event ∈ audit, isDenial row.nodeId row.runId event = true :=
  List.any_eq_true

theorem Logged.append (h : Logged audit row) : Logged (audit ++ more) row := by
  obtain ⟨event, hevent, hdenial⟩ := logged_iff.mp h
  exact logged_iff.mpr ⟨event, List.mem_append_left _ hevent, hdenial⟩

theorem SameRun.logged (h : SameRun row other) : Logged audit row ↔ Logged audit other := by
  rw [Logged, Logged, h.1, h.2]

theorem logged_append_other (haction : event.action ≠ deniedAction) :
    Logged (audit ++ [event]) row ↔ Logged audit row := by
  have hnot : isDenial row.nodeId row.runId event = false := by
    rw [isDenial, decide_eq_false haction, Bool.false_and, Bool.false_and]
  rw [logged_iff, logged_iff]
  constructor
  · rintro ⟨found, hfound, hdenial⟩
    rcases List.mem_append.mp hfound with hfound | hfound
    · exact ⟨found, hfound, hdenial⟩
    · rw [List.mem_singleton.mp hfound, hnot] at hdenial
      cases hdenial
  · rintro ⟨found, hfound, hdenial⟩
    exact ⟨found, List.mem_append_left _ hfound, hdenial⟩

theorem logged_append_own (h : eventOf codec row = some event) : Logged (audit ++ [event]) row :=
  logged_iff.mpr ⟨event, List.mem_append_right _ (List.mem_singleton_self _),
    (isDenial_eventOf h).mpr ⟨rfl, rfl⟩⟩

/-! ## The invariant -/

/-- The event of the result is on its way in some session. -/
def AtWork (locs : Nat → Loc) (row : StoredResult) : Prop :=
  ∃ t other, (locs t).row = some other ∧ SameRun other row

/-- A stored result with denials. -/
def Denied (codec : Json.Codec) (center : Center) (row : StoredResult) : Prop :=
  row ∈ center.results ∧ (eventOf codec row).isSome = true

/-- What a session's place says about the center. -/
def Fits (codec : Json.Codec) (center : Center) (t : Nat) : Loc → Prop
  | .free => center.chain ≠ some t
  | .owing row => center.chain ≠ some t ∧ Denied codec center row
  | .locked row => center.chain = some t ∧ center.staged = [] ∧ Denied codec center row
  | .settled row =>
    center.chain = some t ∧ center.staged = [] ∧ Denied codec center row ∧ Logged center.audit row
  | .fresh row =>
    center.chain = some t ∧ center.staged = [] ∧ Denied codec center row ∧ ¬ Logged center.audit row
  | .appended row => center.chain = some t ∧ Denied codec center row ∧ ¬ Logged center.audit row ∧
    ∃ event, eventOf codec row = some event ∧ center.staged = [event]

/-- A run has one event at most, made from a result of it. -/
structure AuditSound (codec : Json.Codec) (center : Center) : Prop where
  once : ∀ nodeId runId, center.audit.countP (isDenial nodeId runId) ≤ 1
  caused : ∀ event ∈ center.audit, event.action = deniedAction →
    ∃ row ∈ center.results, eventOf codec row = some event

structure Facts (codec : Json.Codec) (center : Center) (locs : Nat → Loc) : Prop where
  fits : ∀ t, Fits codec center t (locs t)
  unlocked : center.chain = none → center.staged = []
  sound : AuditSound codec center
  noted : ∀ row, Denied codec center row → Logged center.audit row ∨ AtWork locs row

section

variable {center center' : Center} {locs : Nat → Loc} {t : Nat} {loc : Loc}

theorem Denied.mono (h : Denied codec center row) (hresults : center.results ⊆ center'.results) :
    Denied codec center' row :=
  ⟨hresults h.1, h.2⟩

/-- What another session does leaves a place as it is. -/
theorem fits_mono (h : Fits codec center t loc) (hresults : center.results ⊆ center'.results)
    (hfree : center.chain ≠ some t → center'.chain ≠ some t)
    (hheld : center.chain = some t → center'.chain = some t ∧ center'.staged = center.staged ∧
      ∀ row, Logged center'.audit row ↔ Logged center.audit row) : Fits codec center' t loc := by
  cases loc with
  | free => exact hfree h
  | owing row => exact ⟨hfree h.1, h.2.mono hresults⟩
  | locked row =>
    obtain ⟨hchain, hstaged, hdenied⟩ := h
    obtain ⟨hchain', hstaged', -⟩ := hheld hchain
    exact ⟨hchain', hstaged'.trans hstaged, hdenied.mono hresults⟩
  | settled row =>
    obtain ⟨hchain, hstaged, hdenied, hlogged⟩ := h
    obtain ⟨hchain', hstaged', haudit⟩ := hheld hchain
    exact ⟨hchain', hstaged'.trans hstaged, hdenied.mono hresults, (haudit row).mpr hlogged⟩
  | fresh row =>
    obtain ⟨hchain, hstaged, hdenied, hlogged⟩ := h
    obtain ⟨hchain', hstaged', haudit⟩ := hheld hchain
    exact ⟨hchain', hstaged'.trans hstaged, hdenied.mono hresults, mt (haudit row).mp hlogged⟩
  | appended row =>
    obtain ⟨hchain, hdenied, hlogged, event, hevent, hstaged⟩ := h
    obtain ⟨hchain', hstaged', haudit⟩ := hheld hchain
    exact ⟨hchain', hdenied.mono hresults, mt (haudit row).mp hlogged, event, hevent,
      hstaged'.trans hstaged⟩

theorem fits_update (hfits : ∀ t', t' ≠ t → Fits codec center' t' (locs t'))
    (hloc : Fits codec center' t loc) (t' : Nat) :
    Fits codec center' t' (Function.update locs t loc t') := by
  by_cases heq : t' = t
  · subst heq
    rw [Function.update_self]
    exact hloc
  · rw [Function.update_of_ne heq]
    exact hfits t' heq

/-- A session that stays at work on its result. -/
theorem AtWork.update (h : AtWork locs row) (hloc : (locs t).row = none ∨ loc.row = (locs t).row) :
    AtWork (Function.update locs t loc) row := by
  obtain ⟨t', other, hother, hsame⟩ := h
  refine ⟨t', other, ?_, hsame⟩
  by_cases heq : t' = t
  · subst heq
    rw [Function.update_self]
    rcases hloc with hnone | hrow
    · rw [hnone] at hother
      cases hother
    · exact hrow.trans hother
  · rw [Function.update_of_ne heq]
    exact hother

theorem rollback_audit (center : Center) (t : Nat) : (center.rollback t).audit = center.audit := by
  rw [Center.rollback]
  split <;> rfl

theorem rollback_results (center : Center) (t : Nat) :
    (center.rollback t).results = center.results := by
  rw [Center.rollback]
  split <;> rfl

theorem rollback_chain (center : Center) (t : Nat) : (center.rollback t).chain ≠ some t := by
  rw [Center.rollback]
  split
  · exact Option.some_ne_none t |>.symm
  · next hchain => exact hchain

/-- A session that ends leaves the facts, when nothing is lost with it. -/
theorem Facts.stop (h : Facts codec center locs)
    (hsaved : ∀ row, (locs t).row = some row → Logged center.audit row ∨
      ∃ t' ≠ t, ∃ other, (locs t').row = some other ∧ SameRun other row) :
    Facts codec (center.rollback t) (Function.update locs t .free) := by
  constructor
  case fits =>
    refine fits_update (fun t' hne => ?_) (rollback_chain center t)
    refine fits_mono (h.fits t') (rollback_results center t ▸ List.Subset.refl _) ?_ ?_
    · intro hfree
      rw [Center.rollback]
      split
      · exact Option.some_ne_none t' |>.symm
      · exact hfree
    · intro hheld
      have hother : center.chain ≠ some t := by
        rw [hheld]
        exact fun heq => hne (Option.some.inj heq)
      rw [Center.rollback, if_neg hother]
      exact ⟨hheld, rfl, fun row => Iff.rfl⟩
  case unlocked =>
    rw [Center.rollback]
    split
    · exact fun _ => rfl
    · exact h.unlocked
  case sound =>
    refine ⟨?_, ?_⟩ <;> rw [rollback_audit]
    · exact h.sound.once
    · rw [rollback_results]
      exact h.sound.caused
  case noted =>
    intro row hdenied
    rw [rollback_audit]
    rcases h.noted row (hdenied.mono (rollback_results center t ▸ List.Subset.refl _)) with
      hlogged | ⟨t', other, hother, hsame⟩
    · exact .inl hlogged
    · by_cases heq : t' = t
      · subst heq
        rcases hsaved other hother with hlogged | ⟨t'', hne, third, hthird, hsame'⟩
        · exact .inl (hsame.logged.mp hlogged)
        · refine .inr ⟨t'', third, ?_, hsame'.1.trans hsame.1, hsame'.2.trans hsame.2⟩
          rw [Function.update_of_ne hne]
          exact hthird
      · refine .inr ⟨t', other, ?_, hsame⟩
        rw [Function.update_of_ne heq]
        exact hother

theorem Facts.insert (h : Facts codec center locs) (hloc : locs t = .free) (row : StoredResult) :
    Facts codec { center with results := center.results ++ [row] }
      (Function.update locs t (if (eventOf codec row).isSome then .owing row else .free)) := by
  have hresults : center.results ⊆ center.results ++ [row] := List.subset_append_left _ _
  have hnone : (locs t).row = none := by rw [hloc]; rfl
  have hchain : center.chain ≠ some t := by
    have hfits := h.fits t
    rwa [hloc] at hfits
  constructor
  case fits =>
    refine fits_update (fun t' _ => ?_) ?_
    · exact fits_mono (h.fits t') hresults id fun hheld => ⟨hheld, rfl, fun _ => Iff.rfl⟩
    · split
      · next hevent => exact ⟨hchain, List.mem_append_right _ (List.mem_singleton_self row), hevent⟩
      · exact hchain
  case unlocked => exact h.unlocked
  case sound =>
    refine ⟨h.sound.once, fun event hevent haction => ?_⟩
    obtain ⟨cause, hcause, hmade⟩ := h.sound.caused event hevent haction
    exact ⟨cause, hresults hcause, hmade⟩
  case noted =>
    rintro other ⟨hmem, hevent⟩
    rcases List.mem_append.mp hmem with hmem | hmem
    · exact (h.noted other ⟨hmem, hevent⟩).imp id fun hwork => hwork.update (.inl hnone)
    · cases List.mem_singleton.mp hmem
      refine .inr ⟨t, row, ?_, rfl, rfl⟩
      rw [Function.update_self, if_pos hevent]
      rfl

/-- A step within the transaction of a session that stays at work. -/
theorem Facts.advance (h : Facts codec center locs) (hrow : loc.row = (locs t).row)
    (hresults : center'.results = center.results) (haudit : center'.audit = center.audit)
    (hothers : ∀ t' ≠ t, Fits codec center' t' (locs t')) (hfits : Fits codec center' t loc)
    (hunlocked : center'.chain = none → center'.staged = []) :
    Facts codec center' (Function.update locs t loc) := by
  constructor
  case fits => exact fits_update hothers hfits
  case unlocked => exact hunlocked
  case sound =>
    refine ⟨?_, ?_⟩ <;> rw [haudit]
    · exact h.sound.once
    · rw [hresults]
      exact h.sound.caused
  case noted =>
    intro row hdenied
    rw [haudit]
    exact (h.noted row (hdenied.mono (hresults ▸ List.Subset.refl _))).imp id
      fun hwork => hwork.update (.inr hrow)

/-- The holder of the lock commits. -/
theorem Facts.commit (h : Facts codec center locs) (hchain : center.chain = some t)
    (hsound : AuditSound codec { center with audit := center.audit ++ center.staged })
    (hlogged : ∀ row, (locs t).row = some row → Logged (center.audit ++ center.staged) row) :
    Facts codec { center with
        audit := center.audit ++ center.staged
        chain := none
        staged := [] }
      (Function.update locs t .free) := by
  constructor
  case fits =>
    refine fits_update (fun t' hne => ?_) fun hheld => by cases hheld
    refine fits_mono (h.fits t') (List.Subset.refl _) (fun _ hheld => by cases hheld) fun hheld => ?_
    exact absurd (Option.some.inj (hheld.symm.trans hchain)) hne
  case unlocked => exact fun _ => rfl
  case sound => exact ⟨hsound.once, hsound.caused⟩
  case noted =>
    intro row hdenied
    rcases h.noted row hdenied with hold | ⟨t', other, hother, hsame⟩
    · exact .inl hold.append
    · by_cases heq : t' = t
      · subst heq
        exact .inl (hsame.logged.mp (hlogged other hother))
      · refine .inr ⟨t', other, ?_, hsame⟩
        rw [Function.update_of_ne heq]
        exact hother

/-- The event of a run that has none is its only one. -/
theorem AuditSound.append (h : AuditSound codec center) (hdenied : Denied codec center row)
    (hfresh : ¬ Logged center.audit row) (hevent : eventOf codec row = some event) :
    AuditSound codec { center with audit := center.audit ++ [event] } := by
  constructor
  case once =>
    intro nodeId runId
    rw [List.countP_append, List.countP_singleton]
    split
    · next hdenial =>
      obtain ⟨rfl, rfl⟩ := (isDenial_eventOf hevent).mp hdenial
      have hzero : center.audit.countP (isDenial row.nodeId row.runId) = 0 := by
        rw [List.countP_eq_zero]
        exact fun found hfound hmatch => hfresh (logged_iff.mpr ⟨found, hfound, hmatch⟩)
      omega
    · exact h.once nodeId runId
  case caused =>
    intro found hfound haction
    rcases List.mem_append.mp hfound with hfound | hfound
    · exact h.caused found hfound haction
    · cases List.mem_singleton.mp hfound
      exact ⟨row, hdenied.1, hevent⟩

/-- What a session does keeps the facts. -/
theorem Facts.exec {op : Op} {reply : op.Reply} (h : Facts codec center locs)
    (hpre : mayPerform codec op (locs t)) (hexec : exec t op false center = some (reply, center')) :
    Facts codec center' (Function.update locs t (note codec op reply (locs t))) := by
  have hfits := h.fits t
  cases op with
  | insertResult row =>
    cases hexec
    exact h.insert hpre row
  | begin =>
    obtain ⟨row, hloc⟩ := hpre
    cases hexec
    have hnote : note codec .begin true (locs t) = locs t := rfl
    rw [hnote, Function.update_eq_self]
    exact h
  | lockAuditChain =>
    obtain ⟨row, hloc⟩ := hpre
    rw [hloc] at hfits
    simp only [Denials.exec, Bool.false_eq_true, if_false] at hexec
    split at hexec
    · next hnone =>
      cases hexec
      rw [hloc]
      refine h.advance (by rw [hloc]; rfl) rfl rfl (fun t' hne => ?_)
        ⟨rfl, h.unlocked hnone, hfits.2⟩ fun hheld => by cases hheld
      refine fits_mono (h.fits t') (List.Subset.refl _) (fun _ hheld => ?_) fun hheld => ?_
      · exact hne (Option.some.inj hheld).symm
      · rw [hnone] at hheld
        cases hheld
    · cases hexec
  | denialAlreadyStored nodeId runId =>
    obtain ⟨row, hloc, rfl, rfl⟩ := hpre
    cases hexec
    rw [hloc] at hfits ⊢
    obtain ⟨hchain, hstaged, hdenied⟩ := hfits
    rw [hstaged, List.append_nil]
    cases hfound : denialAlreadyStored center.audit row.nodeId row.runId with
    | true =>
      exact h.advance (by rw [hloc]; rfl) rfl rfl (fun t' _ => h.fits t')
        ⟨hchain, hstaged, hdenied, hfound⟩ h.unlocked
    | false =>
      have hfresh : ¬ Logged center.audit row := by
        rw [Logged, hfound]
        exact Bool.false_ne_true
      exact h.advance (by rw [hloc]; rfl) rfl rfl (fun t' _ => h.fits t')
        ⟨hchain, hstaged, hdenied, hfresh⟩ h.unlocked
  | appendNodeAudit event =>
    obtain ⟨row, hloc, hevent⟩ := hpre
    cases hexec
    rw [hloc] at hfits ⊢
    obtain ⟨hchain, hstaged, hdenied, hfresh⟩ := hfits
    refine h.advance (by rw [hloc]; rfl) rfl rfl (fun t' hne => ?_)
      ⟨hchain, hdenied, hfresh, event, hevent, by rw [hstaged]; rfl⟩ fun hnone => ?_
    · refine fits_mono (h.fits t') (List.Subset.refl _) id fun hheld => ?_
      exact absurd (Option.some.inj (hheld.symm.trans hchain)) hne
    · exact absurd (hchain.symm.trans hnone) (Option.some_ne_none t)
  | commit =>
    obtain ⟨row, hloc⟩ := hpre
    cases hexec
    have hnote : note codec .commit true (locs t) = .free := rfl
    rw [hnote]
    rcases hloc with hloc | hloc
    · rw [hloc] at hfits
      obtain ⟨hchain, hstaged, -, hlogged⟩ := hfits
      refine h.commit hchain ?_ fun other hother => ?_
      · rw [hstaged, List.append_nil]
        exact ⟨h.sound.once, h.sound.caused⟩
      · rw [hloc] at hother
        cases hother
        exact hlogged.append
    · rw [hloc] at hfits
      obtain ⟨hchain, hdenied, hfresh, event, hevent, hstaged⟩ := hfits
      refine h.commit hchain ?_ fun other hother => ?_
      · have happended := h.sound.append hdenied hfresh hevent
        rw [hstaged]
        exact ⟨happended.once, happended.caused⟩
      · rw [hloc] at hother
        cases hother
        rw [hstaged]
        exact logged_append_own hevent

theorem Facts.record (h : Facts codec center locs) (haction : event.action ≠ deniedAction) :
    Facts codec { center with audit := center.audit ++ [event] } locs := by
  constructor
  case fits =>
    intro t
    exact fits_mono (h.fits t) (List.Subset.refl _) id fun hheld =>
      ⟨hheld, rfl, fun row => logged_append_other haction⟩
  case unlocked => exact h.unlocked
  case sound =>
    refine ⟨fun nodeId runId => ?_, fun found hfound hdenied => ?_⟩
    · have hnot : isDenial nodeId runId event = false := by
        rw [isDenial, decide_eq_false haction, Bool.false_and, Bool.false_and]
      rw [List.countP_append, List.countP_singleton, hnot]
      exact h.sound.once nodeId runId
    · rcases List.mem_append.mp hfound with hfound | hfound
      · exact h.sound.caused found hfound hdenied
      · cases List.mem_singleton.mp hfound
        exact absurd hdenied haction
  case noted =>
    exact fun row hdenied => (h.noted row hdenied).imp (logged_append_other haction).mpr id

end

/-! ## Runs -/

/-- Every run has one denial event at most, made from a stored result of it, and every run with a
stored denial has its event, or it is on its way. -/
structure LoggedOnce (codec : Json.Codec) (sys : System) : Prop where
  sound : AuditSound codec sys.shared
  noted : ∀ row, Denied codec sys.shared row → Logged sys.shared.audit row ∨ AtWork sys.loc row

/-- No result with denials is there before its event. -/
structure LoggedAtOnce (codec : Json.Codec) (sys : System) : Prop where
  sound : AuditSound codec sys.shared
  noted : ∀ row, Denied codec sys.shared row → Logged sys.shared.audit row

/-- The move ends the session, which may be in the middle of a report. -/
def Stops (t : Nat) (m : Move Nat Bool Event) : Prop := m = .act t true ∨ m = .event (.stop t)

/-- The move ends the only session that would append the event of a stored result. -/
def Loses (sys : System) (m : Move Nat Bool Event) : Prop :=
  ∃ t row, Stops t m ∧ (sys.loc t).row = some row ∧ ¬ Logged sys.shared.audit row ∧
    ∀ t' ≠ t, ∀ other, (sys.loc t').row = some other → ¬ SameRun other row

/-- The move stores a result with denials for a run without an event. -/
def Opens (codec : Json.Codec) (sys : System) (m : Move Nat Bool Event) : Prop :=
  ∃ t row, m = .act t false ∧ sys.about t (.insertResult row) ∧ (eventOf codec row).isSome = true ∧
    ¬ Logged sys.shared.audit row

/-- The system after a run from the start. -/
def run (codec : Json.Codec) (moves : List (Move Nat Bool Event)) : Option System :=
  (machine codec).steps initial moves

abbrev Reachable (codec : Json.Codec) (sys : System) : Prop :=
  (machine codec).Reaches (fun _ _ => True) initial sys

section

variable {sys sys' : System} {m : Move Nat Bool Event} {t : Nat}

theorem Reachable.sound (h : Reachable codec sys) : (machine codec).Sound (terms codec) sys :=
  Machine.sound_of_reaches machine_obeys initial_sound h

theorem Fits.denied {center : Center} {loc : Loc} (h : Fits codec center t loc)
    (hrow : loc.row = some row) : Denied codec center row := by
  cases loc with
  | free => cases hrow
  | owing other =>
    cases hrow
    exact h.2
  | locked other =>
    cases hrow
    exact h.2.2
  | settled other =>
    cases hrow
    exact h.2.2.1
  | fresh other =>
    cases hrow
    exact h.2.2.1
  | appended other =>
    cases hrow
    exact h.2.1

/-- A session that stops before the event is there is the last one to know of it. -/
theorem saved_of_not_loses (h : ¬ Loses sys m) (hstops : Stops t m) :
    ∀ row, (sys.loc t).row = some row → Logged sys.shared.audit row ∨
      ∃ t' ≠ t, ∃ other, (sys.loc t').row = some other ∧ SameRun other row := by
  intro row hrow
  by_contra hlost
  rw [not_or] at hlost
  exact h ⟨t, row, hstops, hrow, hlost.1, fun t' hne other hother hsame =>
    hlost.2 ⟨t', hne, other, hother, hsame⟩⟩

theorem facts_step (hreach : Reachable codec sys) (h : Facts codec sys.shared sys.loc)
    (hgood : ¬ Loses sys m) (hstep : (machine codec).step sys m = some sys') :
    Facts codec sys'.shared sys'.loc := by
  cases m with
  | act t fails =>
    obtain ⟨op, next, reply, shared, hprog, hexec, rfl⟩ := (machine codec).act_eq_some.mp hstep
    rw [Machine.after_shared, Machine.after_loc]
    cases fails with
    | false => exact h.exec (hreach.sound.pre ⟨next, hprog⟩) hexec
    | true =>
      cases hexec
      show Facts codec _ (Function.update sys.loc t (note codec op op.failed (sys.loc t)))
      rw [note_failed]
      exact h.stop (saved_of_not_loses hgood (.inl rfl))
  | event e =>
    cases e with
    | receive t row =>
      simp only [Machine.step, machine, fire] at hstep
      split at hstep
      · next hidle =>
        cases hstep
        have hfree : sys.loc t = .free := hreach.sound.rest hidle
        rw [Machine.loc_update]
        dsimp only
        rw [← hfree, Function.update_eq_self]
        exact h
      · cases hstep
    | stop t =>
      cases hstep
      rw [Machine.loc_update]
      exact h.stop (saved_of_not_loses hgood (.inr rfl))
    | other event =>
      simp only [Machine.step, machine, fire] at hstep
      split at hstep
      · cases hstep
      · next haction =>
        cases hstep
        exact h.record haction

/-- A session that ends leaves the tables as they are. -/
theorem stops_step (hreach : Reachable codec sys) (hstops : Stops t m)
    (hrow : (sys.loc t).row = some row) :
    ∃ sys', (machine codec).step sys m = some sys' ∧ sys'.shared = sys.shared.rollback t ∧
      sys'.loc = Function.update sys.loc t .free := by
  rcases hstops with rfl | rfl
  · cases hprog : (sys.threads t).prog with
    | done result =>
      have hidle : sys.idle t = true := by rw [Sys.idle, hprog]
      have hfree : sys.loc t = .free := hreach.sound.rest hidle
      rw [hfree] at hrow
      cases hrow
    | perform op next =>
      refine ⟨_, (machine codec).act_eq_some.mpr ⟨op, next, op.failed, _, hprog, rfl, rfl⟩, rfl, ?_⟩
      rw [Machine.after_loc]
      show Function.update sys.loc t (note codec op op.failed (sys.loc t)) = _
      rw [note_failed]
  · exact ⟨_, rfl, rfl, Machine.loc_update sys t _ _⟩

theorem not_loggedOnce (hreach : Reachable codec sys) (h : Facts codec sys.shared sys.loc)
    (hbad : Loses sys m) :
    ∃ sys', (machine codec).step sys m = some sys' ∧ ¬ LoggedOnce codec sys' := by
  obtain ⟨t, row, hstops, hrow, hmissing, halone⟩ := hbad
  obtain ⟨sys', hstep, hshared, hloc⟩ := stops_step hreach hstops hrow
  refine ⟨sys', hstep, fun hlogged => ?_⟩
  have hdenied := (h.fits t).denied hrow
  have hnoted := hlogged.noted row
  rw [hshared, hloc, rollback_audit] at hnoted
  rcases hnoted (hdenied.mono (rollback_results sys.shared t ▸ List.Subset.refl _)) with
    hthere | ⟨t', other, hother, hsame⟩
  · exact hmissing hthere
  · by_cases heq : t' = t
    · subst heq
      rw [Function.update_self] at hother
      cases hother
    · rw [Function.update_of_ne heq] at hother
      exact halone t' heq other hother hsame

/-- What a move stores, and that it takes no event back. -/
theorem step_tables (hstep : (machine codec).step sys m = some sys') :
    (∀ row, Logged sys.shared.audit row → Logged sys'.shared.audit row) ∧
    ∀ row ∈ sys'.shared.results, row ∈ sys.shared.results ∨
      ∃ t, m = .act t false ∧ sys.about t (.insertResult row) := by
  cases m with
  | act t fails =>
    obtain ⟨op, next, reply, shared, hprog, hexec, rfl⟩ := (machine codec).act_eq_some.mp hstep
    rw [Machine.after_shared]
    cases fails with
    | true =>
      cases hexec
      rw [rollback_audit, rollback_results]
      exact ⟨fun _ => id, fun _ => .inl⟩
    | false =>
      cases op with
      | insertResult row =>
        cases hexec
        refine ⟨fun _ => id, fun other hother => ?_⟩
        rcases List.mem_append.mp hother with hother | hother
        · exact .inl hother
        · cases List.mem_singleton.mp hother
          exact .inr ⟨t, rfl, next, hprog⟩
      | commit =>
        cases hexec
        exact ⟨fun _ hlogged => hlogged.append, fun _ => .inl⟩
      | lockAuditChain =>
        simp only [machine, exec, Bool.false_eq_true, if_false] at hexec
        split at hexec
        · cases hexec
          exact ⟨fun _ => id, fun _ => .inl⟩
        · cases hexec
      | begin =>
        cases hexec
        exact ⟨fun _ => id, fun _ => .inl⟩
      | denialAlreadyStored nodeId runId =>
        cases hexec
        exact ⟨fun _ => id, fun _ => .inl⟩
      | appendNodeAudit event =>
        cases hexec
        exact ⟨fun _ => id, fun _ => .inl⟩
  | event e =>
    cases e with
    | receive t row =>
      simp only [Machine.step, machine, fire] at hstep
      split at hstep
      · cases hstep
        exact ⟨fun _ => id, fun _ => .inl⟩
      · cases hstep
    | stop t =>
      cases hstep
      rw [rollback_audit, rollback_results]
      exact ⟨fun _ => id, fun _ => .inl⟩
    | other event =>
      simp only [Machine.step, machine, fire] at hstep
      split at hstep
      · cases hstep
      · cases hstep
        exact ⟨fun _ hlogged => hlogged.append, fun _ => .inl⟩

theorem not_loggedAtOnce (hbad : Opens codec sys m) :
    ∃ sys', (machine codec).step sys m = some sys' ∧ ¬ LoggedAtOnce codec sys' := by
  obtain ⟨t, row, rfl, ⟨next, hprog⟩, hevent, hmissing⟩ := hbad
  refine ⟨_, (machine codec).act_eq_some.mpr ⟨_, next, _, _, hprog, rfl, rfl⟩, fun hlogged => ?_⟩
  exact hmissing (hlogged.noted row ⟨List.mem_append_right _ (List.mem_singleton_self row), hevent⟩)

end

section

variable (codec)

theorem initial_facts : Facts codec initial.shared initial.loc where
  fits _ := (Option.some_ne_none _).symm
  unlocked _ := rfl
  sound := ⟨fun _ _ => Nat.zero_le _, fun _ hevent => absurd hevent List.not_mem_nil⟩
  noted _ hdenied := absurd hdenied.1 List.not_mem_nil

/-- Of every run of sessions that store results, in any interleaving and with any failures: the
events are exactly those of the runs with a stored denial, once each, with those on their way, in
every state if and only if no move ends the only session that would append an event.  And they are
so without those on their way if and only if no result with denials is the first of its run. -/
theorem denials_logged_iff (moves : List (Move Nat Bool Event)) :
    ((∀ before, before <+: moves → ∀ sys, run codec before = some sys → LoggedOnce codec sys) ↔
      ∀ before m, before ++ [m] <+: moves → ∀ sys, run codec before = some sys → ¬ Loses sys m) ∧
    ((∀ before, before <+: moves → ∀ sys, run codec before = some sys → LoggedAtOnce codec sys) ↔
      ∀ before m, before ++ [m] <+: moves → ∀ sys, run codec before = some sys →
        ¬ Opens codec sys m) := by
  have htracked : Reachable codec initial ∧ Facts codec initial.shared initial.loc :=
    ⟨.refl, initial_facts codec⟩
  constructor
  · have honce : ∀ sys, Reachable codec sys ∧ Facts codec sys.shared sys.loc →
        LoggedOnce codec sys := fun sys h => ⟨h.2.sound, h.2.noted⟩
    refine Machine.steps_iff honce ?_ ?_ htracked moves
    · rintro sys m sys' ⟨hreach, hfacts⟩ hgood hstep
      exact ⟨.step hreach trivial hstep, facts_step hreach hfacts hgood hstep⟩
    · rintro sys m ⟨hreach, hfacts⟩ hbad
      exact not_loggedOnce hreach hfacts hbad
  · have honce : ∀ sys, (Reachable codec sys ∧ Facts codec sys.shared sys.loc) ∧
        (∀ row, Denied codec sys.shared row → Logged sys.shared.audit row) →
          LoggedAtOnce codec sys := fun sys h => ⟨h.1.2.sound, h.2⟩
    refine Machine.steps_iff honce ?_ ?_ ⟨htracked, ?_⟩ moves
    · rintro sys m sys' ⟨⟨hreach, hfacts⟩, hnoted⟩ hgood hstep
      have hkept : ¬ Loses sys m := by
        rintro ⟨t, row, -, hrow, hmissing, -⟩
        exact hmissing (hnoted row ((hfacts.fits t).denied hrow))
      refine ⟨⟨.step hreach trivial hstep, facts_step hreach hfacts hkept hstep⟩, ?_⟩
      obtain ⟨hlogged, hstored⟩ := step_tables hstep
      rintro row ⟨hmem, hevent⟩
      rcases hstored row hmem with hold | ⟨t, rfl, habout⟩
      · exact hlogged row (hnoted row ⟨hold, hevent⟩)
      · by_contra hmissing
        exact hgood ⟨t, row, rfl, habout, hevent, fun hthere => hmissing (hlogged row hthere)⟩
    · exact fun sys m _ hbad => not_loggedAtOnce hbad
    · exact fun row hdenied => absurd hdenied.1 List.not_mem_nil

end

/-! ### A failure between the transactions -/

/-- Reads one payload, which has a denial. -/
def denialCodec : Json.Codec where
  parse text := if text = "\x7b\"denials\":[\x7b\x7d]\x7d" then some (.obj [("denials", .arr [.obj []])]) else none
  print _ := "null"

def deniedRow : StoredResult :=
  ⟨"node-1", "run-1", "env", "error", "\x7b\"denials\":[\x7b\x7d]\x7d", 0⟩

/-- The result is stored, and no transaction can be begun for its event. -/
def failingMoves : List (Move Nat Bool Event) :=
  [.event (.receive 0 deniedRow), .act 0 false, .act 0 true]

/-- No session is at work, and the stored result has no event. -/
theorem denial_lost :
    ¬ ∀ codec moves sys, run codec moves = some sys → (∀ t, sys.idle t = true) →
      ∀ row, Denied codec sys.shared row → Logged sys.shared.audit row := by
  intro hall
  obtain ⟨sys, hrun, hresults, haudit, hidle⟩ : ∃ sys, run denialCodec failingMoves = some sys ∧
      sys.shared.results = [deniedRow] ∧ sys.shared.audit = [] ∧ ∀ t, sys.idle t = true :=
    ⟨_, rfl, rfl, rfl, fun t => by cases t <;> rfl⟩
  have hlogged := hall denialCodec failingMoves sys hrun hidle deniedRow
    ⟨by rw [hresults]; exact List.mem_singleton_self _, rfl⟩
  rw [haudit] at hlogged
  exact absurd hlogged Bool.false_ne_true

end Novbot.Skills.Denials
