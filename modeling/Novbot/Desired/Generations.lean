import Novbot.Desired.Center
import Novbot.Skills.Reconcile

/-!
# Generations

A request counts generations up from the ones that its transaction saw when it began.  The
lock of the audit chain is taken after that, so it orders the writes of two requests but
not what they count from.  A commit that brings no newer generation than the committed one
gives a second desired set the generation of the first, and a node that applied the first
takes the second for applied.
-/

namespace Novbot.Desired

open Concurrent

/-! ## The statement -/

/-- What is committed after something else is newer, or the same. -/
def Later (new old : Sent) : Prop := old.1 < new.1 ∨ new = old

/-- Every two desired sets that were committed for a node are told apart by their
generations, the later one having the greater. -/
def Increasing (history : List Sent) : Prop := history.Pairwise Later

structure Consistent (center : Center) : Prop where
  increasing : ∀ nodeId, Increasing (center.history nodeId)
  /-- A node that received the last committed generation has the last committed set. -/
  settled : ∀ nodeId, center.tables.gen nodeId ∈ center.received nodeId →
    center.applied nodeId = center.tables.desired nodeId

def Tables.sent (tables : Tables) (nodeId : String) : Sent :=
  (tables.gen nodeId, tables.desired nodeId)

/-- The writes of a transaction for a node change nothing, or they are more than the
generations that were committed for the node since the transaction began. -/
def Advances (tables : Tables) (tx : Tx) (nodeId : String) : Prop :=
  (applyAll tx.writes tables).sent nodeId = tables.sent nodeId ∨
    tables.gen nodeId < tx.snapshot.gen nodeId + writesFor tx.writes nodeId

/-- A transaction that commits advances every node. -/
def advancing (sys : System) : Move Nat Unit Event → Prop
  | .act t _ => sys.about t .commit → ∀ tx, sys.shared.txs t = some tx →
      ∀ nodeId, Advances sys.shared.tables tx nodeId
  | .event _ => True

/-! ## The invariant -/

/-- A desired set that was committed at some time, with the same or an older generation. -/
def Past (tables : Tables) (nodeId : String) (sent : Sent) : Prop :=
  sent.1 ≤ tables.gen nodeId ∧ (sent.1 = tables.gen nodeId → sent.2 = tables.desired nodeId)

structure ThreadInv (tables : Tables) (tx : Option Tx) (loc : Loc) : Prop where
  counted : ∀ tx', tx = some tx' → ∀ nodeId,
    tx'.view.gen nodeId = tx'.snapshot.gen nodeId + writesFor tx'.writes nodeId
  loaded : ∀ tx' gens, tx = some tx' → loc.gens = some gens → ∀ nodeId ∉ loc.since,
    tx'.view.gen nodeId = (gens nodeId).getD 0
  generation : ∀ nodeId generation, loc.generation = some (nodeId, generation) →
    generation ≤ tables.gen nodeId
  built : ∀ nodeId sent, loc.built = some (nodeId, sent) → Past tables nodeId sent

structure NodeInv (tables : Tables) (center : Center) (nodeId : String) : Prop where
  wire : ∀ sent ∈ center.wire nodeId, Past tables nodeId sent
  host : Past tables nodeId ((center.hosts nodeId).inner.generation, center.applied nodeId)
  received : ∀ generation ∈ center.received nodeId,
    generation ≤ (center.hosts nodeId).inner.generation

structure Invariant (center : Center) (locs : Nat → Loc) : Prop where
  increasing : ∀ nodeId, Increasing (center.history nodeId)
  head : ∀ nodeId, ∃ older, center.history nodeId = center.tables.sent nodeId :: older
  threads : ∀ t, ThreadInv center.tables (center.txs t) (locs t)
  nodes : ∀ nodeId, NodeInv center.tables center nodeId

variable {tables tables' : Tables} {state : Center} {locs : Nat → Loc} {t : Nat}

theorem Later.trans {a b c : Sent} (hab : Later a b) (hbc : Later b c) : Later a c := by
  rcases hab with hab | rfl
  · rcases hbc with hbc | rfl
    · exact .inl (lt_trans hbc hab)
    · exact .inl hab
  · exact hbc

theorem Past.later {nodeId : String} {sent : Sent} (h : Past tables nodeId sent)
    (hlater : Later (tables'.sent nodeId) (tables.sent nodeId)) : Past tables' nodeId sent := by
  rcases hlater with hlt | heq
  · have hlt' : tables.gen nodeId < tables'.gen nodeId := hlt
    exact ⟨le_of_lt (lt_of_le_of_lt h.1 hlt'),
      fun hgen => absurd (hgen ▸ h.1) (not_le_of_gt hlt')⟩
  · obtain ⟨hgen, hdesired⟩ := Prod.mk.inj heq
    rw [Past, hgen, hdesired]
    exact h

theorem Invariant.consistent (h : Invariant state locs) : Consistent state := by
  refine ⟨h.increasing, fun nodeId hreceived => ?_⟩
  obtain ⟨-, ⟨hle, hsame⟩, hbound⟩ := h.nodes nodeId
  exact hsame (le_antisymm hle (hbound _ hreceived))

/-- A thread takes a step that leaves the tables alone. -/
theorem Invariant.thread (h : Invariant state locs) {tx : Option Tx} {loc : Loc}
    (hthread : ThreadInv state.tables tx loc) (holder : Option Nat) :
    Invariant { state with holder, txs := Function.update state.txs t tx }
      (Function.update locs t loc) := by
  refine ⟨h.increasing, h.head, fun t' => ?_, fun nodeId => ?_⟩
  · by_cases ht : t' = t
    · subst ht
      simp only [Function.update_self]
      exact hthread
    · simp only [Function.update_of_ne ht]
      exact h.threads t'
  · exact ⟨(h.nodes nodeId).wire, (h.nodes nodeId).host, (h.nodes nodeId).received⟩

theorem Invariant.loc (h : Invariant state locs) {loc : Loc}
    (hthread : ThreadInv state.tables (state.txs t) loc) :
    Invariant state (Function.update locs t loc) := by
  have hstep : Invariant { state with txs := Function.update state.txs t (state.txs t) }
      (Function.update locs t loc) := h.thread hthread state.holder
  rw [Function.update_eq_self] at hstep
  exact hstep

/-! ## The operations of a transaction -/

theorem ThreadInv.write {tx : Tx} {loc : Loc} {write : NodeWrite}
    (h : ThreadInv tables (some tx) loc) (hpre : mayPerform (.write write) loc) :
    ThreadInv tables (some { tx with writes := tx.writes ++ [write] })
      (note (.write write) () loc) := by
  obtain ⟨gens, hgens, hnew, hgeneration⟩ := hpre
  have hview : ∀ nodeId, (Tx.view { tx with writes := tx.writes ++ [write] }).gen nodeId =
      if write.nodeId = nodeId then write.generation else tx.view.gen nodeId := by
    intro nodeId
    rw [Tx.view, applyAll_concat, gen_apply]
    rfl
  refine ⟨fun tx' htx nodeId => ?_, fun tx' gens' htx hgens' nodeId hsince => ?_, h.generation,
    h.built⟩
  · cases htx
    rw [hview, writesFor_concat]
    split
    · next heq =>
      subst heq
      have hloaded := h.loaded tx gens rfl hgens write.nodeId hnew
      rw [hgeneration, ← hloaded, h.counted tx rfl]
      dsimp only
      omega
    · rw [h.counted tx rfl, Nat.add_zero]
  · cases htx
    have hother : write.nodeId ≠ nodeId := fun heq => hsince (heq ▸ List.mem_cons_self)
    rw [hview, if_neg hother]
    exact h.loaded tx gens' rfl hgens' nodeId fun hmem => hsince (.tail _ hmem)

/-- A deletion that finds no row. -/
theorem ThreadInv.since {tx : Option Tx} {loc : Loc} {write : NodeWrite}
    (h : ThreadInv tables tx loc) : ThreadInv tables tx (note (.write write) () loc) :=
  ⟨h.counted, fun tx' gens htx hgens nodeId hsince =>
    h.loaded tx' gens htx hgens nodeId fun hmem => hsince (.tail _ hmem), h.generation, h.built⟩

theorem ThreadInv.load {tx : Tx} {loc : Loc} (h : ThreadInv tables (some tx) loc) :
    ThreadInv tables (some tx) (note .loadGenerations tx.view.generation loc) := by
  refine ⟨h.counted, fun tx' gens htx hgens nodeId _ => ?_, h.generation, h.built⟩
  cases htx
  cases hgens
  rfl

theorem ThreadInv.ended {tx : Option Tx} {loc : Loc} (h : ThreadInv tables tx loc) :
    ThreadInv tables none loc :=
  ⟨fun _ htx => (nomatch htx), fun _ _ htx => (nomatch htx), h.generation, h.built⟩

theorem ThreadInv.later {tx : Option Tx} {loc : Loc} (h : ThreadInv tables tx loc)
    (hlater : ∀ nodeId, Later (tables'.sent nodeId) (tables.sent nodeId)) :
    ThreadInv tables' tx loc := by
  refine ⟨h.counted, h.loaded, fun nodeId generation hread => ?_,
    fun nodeId sent hbuilt => (h.built nodeId sent hbuilt).later (hlater nodeId)⟩
  have hle := h.generation nodeId generation hread
  rcases hlater nodeId with hlt | heq
  · exact le_of_lt (lt_of_le_of_lt hle hlt)
  · exact hle.trans (le_of_eq (congrArg Prod.fst heq).symm)

/-! ## Commits -/

/-- A commit for a node puts what the transaction counted in place of what is committed. -/
theorem gen_commit {tx : Tx} {nodeId : String}
    (hcounted : tx.view.gen nodeId = tx.snapshot.gen nodeId + writesFor tx.writes nodeId)
    (hwrites : writesFor tx.writes nodeId ≠ 0) (tables : Tables) :
    (applyAll tx.writes tables).gen nodeId =
      tx.snapshot.gen nodeId + writesFor tx.writes nodeId :=
  (gen_applyAll_congr hwrites tables tx.snapshot).trans hcounted

theorem sent_of_no_write {tx : Tx} {nodeId : String} (h : writesFor tx.writes nodeId = 0)
    (tables : Tables) : (applyAll tx.writes tables).sent nodeId = tables.sent nodeId := by
  obtain ⟨hgen, hdesired⟩ := applyAll_of_no_write h tables
  exact Prod.ext (congrArg (·.getD 0) hgen) hdesired

/-- A transaction advances a node exactly when what it leaves there is later. -/
theorem advances_iff {tx : Tx} {nodeId : String}
    (hcounted : tx.view.gen nodeId = tx.snapshot.gen nodeId + writesFor tx.writes nodeId) :
    Advances tables tx nodeId ↔
      Later ((applyAll tx.writes tables).sent nodeId) (tables.sent nodeId) := by
  by_cases hwrites : writesFor tx.writes nodeId = 0
  · have hsame := sent_of_no_write hwrites tables
    exact iff_of_true (.inl hsame) (.inr hsame)
  · have hgen := gen_commit hcounted hwrites tables
    constructor
    · rintro (hsame | hlt)
      · exact .inr hsame
      · exact .inl (hlt.trans_eq hgen.symm)
    · rintro (hlt | hsame)
      · exact .inr (hgen ▸ hlt)
      · exact .inl hsame

theorem Invariant.commit (h : Invariant state locs) {tx : Tx} (htx : state.txs t = some tx)
    (hadvances : ∀ nodeId, Advances state.tables tx nodeId) :
    Invariant ((state.commit tx).finish t) locs := by
  have hlater : ∀ nodeId,
      Later ((applyAll tx.writes state.tables).sent nodeId) (state.tables.sent nodeId) :=
    fun nodeId => (advances_iff ((h.threads t).counted tx htx nodeId)).mp (hadvances nodeId)
  have hhistory : ∀ nodeId, ((state.commit tx).finish t).history nodeId =
      if writesFor tx.writes nodeId = 0 then state.history nodeId
      else (applyAll tx.writes state.tables).sent nodeId :: state.history nodeId := fun _ => rfl
  refine ⟨fun nodeId => ?_, fun nodeId => ?_, fun t' => ?_, fun nodeId => ?_⟩
  · rw [hhistory]
    split
    · exact h.increasing nodeId
    · refine List.pairwise_cons.mpr ⟨fun old hold => ?_, h.increasing nodeId⟩
      obtain ⟨older, heq⟩ := h.head nodeId
      have hincreasing := h.increasing nodeId
      rw [heq] at hold hincreasing
      rcases List.mem_cons.mp hold with rfl | hold
      · exact hlater nodeId
      · exact (hlater nodeId).trans ((List.pairwise_cons.mp hincreasing).1 old hold)
  · rw [hhistory]
    split
    · next hnone =>
      obtain ⟨older, heq⟩ := h.head nodeId
      exact ⟨older, heq.trans (congrArg (· :: older) (sent_of_no_write hnone state.tables).symm)⟩
    · exact ⟨_, rfl⟩
  · show ThreadInv (applyAll tx.writes state.tables) (Function.update state.txs t none t') (locs t')
    by_cases ht : t' = t
    · subst ht
      rw [Function.update_self]
      exact ((h.threads t').later hlater).ended
    · rw [Function.update_of_ne ht]
      exact (h.threads t').later hlater
  · obtain ⟨hwire, hhost, hreceived⟩ := h.nodes nodeId
    exact ⟨fun sent hsent => (hwire sent hsent).later (hlater nodeId), hhost.later (hlater nodeId),
      hreceived⟩

/-! ## Nodes -/

theorem Invariant.push (h : Invariant state locs) {nodeId : String} {sent : Sent}
    (hpast : Past state.tables nodeId sent) :
    Invariant { state with
      wire := Function.update state.wire nodeId (sent :: state.wire nodeId) } locs := by
  refine ⟨h.increasing, h.head, h.threads, fun other => ⟨fun sent' hsent => ?_, (h.nodes other).host,
    (h.nodes other).received⟩⟩
  by_cases hother : other = nodeId
  · subst hother
    simp only [Function.update_self] at hsent
    rcases List.mem_cons.mp hsent with rfl | hsent
    · exact hpast
    · exact (h.nodes other).wire sent' hsent
  · simp only [Function.update_of_ne hother] at hsent
    exact (h.nodes other).wire sent' hsent

/-- A node keeps a generation that is not newer and applies one that is. -/
theorem reconcile_generation (host : Skills.Host) (setup : Skills.Setup)
    (desired : Skills.DesiredSet) (conditions : Skills.Conditions) :
    (host.reconcile setup desired conditions).1.inner.generation =
      if host.inner.isNoop desired then host.inner.generation else desired.generation := by
  cases hnoop : host.inner.isNoop desired with
  | true =>
    rw [Skills.reconcile_of_noop hnoop]
    exact (if_pos rfl).symm
  | false =>
    rw [(Skills.reconcile_of_not_noop hnoop).1]
    exact (if_neg Bool.false_ne_true).symm

theorem le_of_isNoop {inner : Skills.Inner} {desired : Skills.DesiredSet}
    (h : inner.isNoop desired = true) : desired.generation ≤ inner.generation := by
  simp only [Skills.Inner.isNoop, Bool.or_eq_true, Bool.and_eq_true, decide_eq_true_eq] at h
  rcases h with h | h
  · exact le_of_lt h
  · exact le_of_eq h.1

theorem le_of_not_isNoop {inner : Skills.Inner} {desired : Skills.DesiredSet}
    (h : inner.isNoop desired = false) : inner.generation ≤ desired.generation := by
  simp only [Skills.Inner.isNoop, Bool.or_eq_false_iff, decide_eq_false_iff_not] at h
  exact not_lt.mp h.1

theorem Invariant.receive (h : Invariant state locs) {nodeId : String} {sent : Sent}
    (hsent : sent ∈ state.wire nodeId) (delivery : Delivery) :
    Invariant (state.receive nodeId sent delivery) locs := by
  refine ⟨h.increasing, h.head, h.threads, fun other => ?_⟩
  by_cases hother : other = nodeId
  · subst hother
    obtain ⟨hwire, hhost, hreceived⟩ := h.nodes other
    have hgeneration := reconcile_generation (state.hosts other) delivery.setup
      (desiredSet sent delivery.details) delivery.conditions
    constructor
    · exact hwire
    · simp only [Center.receive, Function.update_self, hgeneration]
      split
      · exact hhost
      · exact hwire sent hsent
    · simp only [Center.receive, Function.update_self, hgeneration]
      intro generation hmem
      cases hnoop : (state.hosts other).inner.isNoop (desiredSet sent delivery.details) with
      | true =>
        rw [if_pos rfl]
        rcases List.mem_cons.mp hmem with rfl | hmem
        · exact le_of_isNoop hnoop
        · exact hreceived generation hmem
      | false =>
        rw [if_neg Bool.false_ne_true]
        rcases List.mem_cons.mp hmem with rfl | hmem
        · exact le_refl _
        · exact (hreceived generation hmem).trans (le_of_not_isNoop hnoop)
  · obtain ⟨hwire, hhost, hreceived⟩ := h.nodes other
    constructor
    · exact hwire
    · simp only [Center.receive, Function.update_of_ne hother]
      exact hhost
    · simp only [Center.receive, Function.update_of_ne hother]
      exact hreceived

/-! ## Steps -/

theorem Invariant.same (h : Invariant state locs) : Invariant state (Function.update locs t (locs t)) := by
  rw [Function.update_eq_self]
  exact h

theorem Invariant.finish (h : Invariant state locs) {loc : Loc}
    (hthread : ThreadInv state.tables none loc) :
    Invariant (state.finish t) (Function.update locs t loc) := h.thread hthread _

theorem Invariant.exec (h : Invariant state locs) {op : Op} {reply : op.Reply} {state' : Center}
    (hpre : mayPerform op (locs t))
    (hadvances : op = .commit → ∀ tx, state.txs t = some tx →
      ∀ nodeId, Advances state.tables tx nodeId)
    (he : Desired.exec t op state = some (reply, state')) :
    Invariant state' (Function.update locs t (note op reply (locs t))) := by
  have hthread := h.threads t
  cases op with
  | begin =>
    have hgens : (locs t).gens = none := hpre
    cases he
    refine h.thread ⟨fun tx htx nodeId => ?_, fun tx gens _ hsome => ?_, hthread.generation,
      hthread.built⟩ state.holder
    · cases htx
      exact (Int.add_zero _).symm
    · have hloaded : (locs t).gens = some gens := hsome
      rw [hgens] at hloaded
      cases hloaded
  | loadDesired skillName =>
    obtain ⟨tx, -, heq⟩ := Option.map_eq_some_iff.mp he
    cases heq
    exact h.same
  | loadGenerations =>
    obtain ⟨tx, htx, heq⟩ := Option.map_eq_some_iff.mp he
    cases heq
    rw [htx] at hthread
    exact h.loc (htx ▸ hthread.load)
  | lockChain =>
    simp only [Desired.exec] at he
    split at he
    · cases he
      have hstep : Invariant { state with
          holder := some t, txs := Function.update state.txs t (state.txs t) }
          (Function.update locs t (locs t)) := h.thread hthread (some t)
      rw [Function.update_eq_self] at hstep
      exact hstep
    · cases he
  | write write =>
    obtain ⟨tx, htx, heq⟩ := Option.map_eq_some_iff.mp he
    rw [htx] at hthread
    split at heq
    · cases heq
      exact h.thread (hthread.write hpre) state.holder
    · cases heq
      exact h.loc (htx ▸ hthread.since)
  | commit =>
    obtain ⟨tx, htx, heq⟩ := Option.map_eq_some_iff.mp he
    cases heq
    exact (h.commit htx (hadvances rfl tx htx)).same
  | rollback =>
    cases he
    exact h.finish hthread.ended
  | readGeneration nodeId =>
    cases he
    refine h.loc ⟨hthread.counted, hthread.loaded, fun other generation hread => ?_, hthread.built⟩
    cases hread
    exact le_refl _
  | readDesired nodeId =>
    obtain ⟨generation, hread⟩ := hpre
    cases he
    refine h.loc ⟨hthread.counted, hthread.loaded, hthread.generation, fun other sent hbuilt => ?_⟩
    simp only [note, hread, Option.map_some, Option.some.injEq] at hbuilt
    cases hbuilt
    exact ⟨hthread.generation nodeId generation hread, fun _ => rfl⟩
  | push nodeId generation skills =>
    cases he
    exact (h.push (hthread.built nodeId (generation, skills) hpre)).same

theorem initial_invariant {hosts : String → Skills.Host}
    (hfresh : ∀ nodeId, (hosts nodeId).inner.generation = 0) :
    Invariant (initial hosts).shared (initial hosts).loc := by
  refine ⟨fun nodeId => List.pairwise_singleton _ _, fun nodeId => ⟨[], rfl⟩, fun t => ?_,
    fun nodeId => ⟨fun _ hsent => (nomatch hsent), ?_, fun _ hmem => (nomatch hmem)⟩⟩
  · exact ⟨fun _ htx => (nomatch htx), fun _ _ htx => (nomatch htx), fun _ _ hread => (nomatch hread),
      fun _ _ hbuilt => (nomatch hbuilt)⟩
  · show Past Tables.initial nodeId ((hosts nodeId).inner.generation, .empty)
    rw [hfresh nodeId]
    exact ⟨le_refl _, fun _ => rfl⟩

variable {setup : Setup} {hosts : String → Skills.Host}

theorem invariant_of_reaches (hfresh : ∀ nodeId, (hosts nodeId).inner.generation = 0)
    {sys : System} (h : (center setup).Reaches advancing (initial hosts) sys) :
    Invariant sys.shared sys.loc := by
  refine h.invariant (center_obeys setup) (initial_sound setup hosts) (initial_invariant hfresh)
    ?_ ?_
  · intro sys t op uuid reply shared _ hinv hok hop hpre _ he
    exact hinv.exec hpre (fun heq => hok (heq ▸ hop)) he
  · intro sys e sys' _ hinv _ hfire
    cases e with
    | start t request =>
      simp only [center, fire] at hfire
      split at hfire
      · cases hfire
        rw [Machine.loc_update]
        refine hinv.loc ⟨(hinv.threads t).counted, fun _ _ _ hgens => ?_, fun _ _ hread => ?_,
          fun _ _ hbuilt => ?_⟩
        · cases hgens
        · cases hread
        · cases hbuilt
      · cases hfire
    | abort t =>
      cases hfire
      rw [Machine.loc_update]
      refine hinv.finish ⟨fun _ htx => ?_, fun _ _ htx => ?_, fun _ _ hread => ?_,
        fun _ _ hbuilt => ?_⟩
      · cases htx
      · cases htx
      · cases hread
      · cases hbuilt
    | receive nodeId index delivery =>
      simp only [center, fire, Option.map_eq_some_iff] at hfire
      obtain ⟨sent, hsent, rfl⟩ := hfire
      exact hinv.receive (List.mem_of_getElem? hsent) delivery

/-- A commit that leaves the history in order advanced every node. -/
theorem advancing_of_increasing {sys sys' : System} {m : Move Nat Unit Event}
    (h : Invariant sys.shared sys.loc) (hs : (center setup).step sys m = some sys')
    (hincreasing : ∀ nodeId, Increasing (sys'.shared.history nodeId)) : advancing sys m := by
  cases m with
  | event e => trivial
  | act t uuid =>
    rintro ⟨next, hprog⟩ tx htx nodeId
    obtain ⟨op, next', reply, shared, hprog', he, rfl⟩ := (center setup).act_eq_some.mp hs
    rw [hprog] at hprog'
    cases hprog'
    obtain ⟨tx', htx', heq⟩ := Option.map_eq_some_iff.mp he
    rw [htx] at htx'
    cases htx'
    cases heq
    rw [advances_iff ((h.threads t).counted tx htx nodeId)]
    by_cases hwrites : writesFor tx.writes nodeId = 0
    · exact .inr (sent_of_no_write hwrites _)
    · obtain ⟨older, hhead⟩ := h.head nodeId
      have hnode : Increasing (if writesFor tx.writes nodeId = 0 then sys.shared.history nodeId
          else (applyAll tx.writes sys.shared.tables).sent nodeId :: sys.shared.history nodeId) :=
        hincreasing nodeId
      rw [if_neg hwrites, hhead] at hnode
      exact (List.pairwise_cons.mp hnode).1 _ List.mem_cons_self

/-- In every run whose commits advance every node, the desired sets that were committed
for a node have increasing generations and a node that received the last generation has
the last set, and the next move keeps it so exactly when it advances every node too. -/
theorem generations_tell_apart_iff (hfresh : ∀ nodeId, (hosts nodeId).inner.generation = 0)
    {sys : System} (h : (center setup).Reaches advancing (initial hosts) sys) :
    Consistent sys.shared ∧ ∀ m sys', (center setup).step sys m = some sys' →
      (Consistent sys'.shared ↔ advancing sys m) := by
  have hinv := invariant_of_reaches hfresh h
  refine ⟨hinv.consistent, fun m sys' hs => ⟨fun hconsistent => ?_, fun hok => ?_⟩⟩
  · exact advancing_of_increasing hinv hs hconsistent.increasing
  · exact (invariant_of_reaches hfresh (.step h hok hs)).consistent

/-- Versions in no order. -/
def sampleSetup : Setup := ⟨fun _ => none⟩

def sampleSlots : Slots := ⟨[⟨"n", "", []⟩], List.pairwise_singleton _ _⟩

def installOf (skillName : String) : Request :=
  .applyInstalls [⟨skillName, "1.0.0", skillName, none, []⟩] sampleSlots false

/-- A commit is for one node, from the generation that is committed. -/
def counted (sys : System) : Move Nat Unit Event → Bool
  | .act t _ =>
    match (sys.threads t).prog, sys.shared.txs t with
    | .perform .commit _, some tx =>
      tx.writes.all (fun write => write.nodeId = "n") &&
        decide (sys.shared.tables.gen "n" < tx.snapshot.gen "n" + writesFor tx.writes "n")
    | .perform .commit _, none => false
    | _, _ => true
  | .event _ => true

theorem advancing_of_counted {sys : System} {m : Move Nat Unit Event} (h : counted sys m = true) :
    advancing sys m := by
  cases m with
  | event e => trivial
  | act t uuid =>
    rintro ⟨next, hprog⟩ tx htx nodeId
    simp only [counted, hprog, htx, Bool.and_eq_true, decide_eq_true_eq] at h
    by_cases hnode : nodeId = "n"
    · subst hnode
      exact .inr h.2
    · refine .inl (sent_of_no_write (List.countP_eq_zero.mpr fun write hwrite hfor => ?_) _)
      have hwritten := of_decide_eq_true (List.all_eq_true.mp h.1 write hwrite)
      exact hnode ((of_decide_eq_true hfor).symm.trans hwritten)

/-- A desired set goes out to the node. -/
def delivered (t index : Nat) : List (Move Nat Unit Event) :=
  [.event (.start t (.deliver "n")), .act t (), .act t (), .act t (),
    .event (.receive "n" index ⟨Skills.uptimeSetup, Skills.refusing, fun _ => Skills.uptimeSkill⟩)]

def installed : List (Move Nat Unit Event) :=
  [.event (.start 0 (installOf "a"))] ++ List.replicate 6 (.act 0 ()) ++ delivered 1 0

theorem generations_tell_apart_sample :
    ∃ sys : System, 1 ∈ sys.shared.received "n" ∧ Consistent sys.shared := by
  have hrun : ((center sampleSetup).run counted (initial fun _ => Skills.freshHost) installed).any
      (fun sys => decide (1 ∈ sys.shared.received "n")) = true := by
    decide +kernel
  obtain ⟨sys, hreach, hreceived⟩ :=
    Machine.exists_reaches_of_run (fun _ _ => advancing_of_counted) hrun
  exact ⟨sys, of_decide_eq_true hreceived,
    (generations_tell_apart_iff (fun _ => rfl) hreach).1⟩

/-! ## Two sets of one generation -/

/-- Two installs begin before either of them commits, and the node gets what each
committed. -/
def installedTwice : List (Move Nat Unit Event) :=
  [.event (.start 0 (installOf "a")), .event (.start 1 (installOf "b")), .act 0 (), .act 1 ()] ++
  List.replicate 5 (.act 0 ()) ++ delivered 2 0 ++ List.replicate 5 (.act 1 ()) ++ delivered 3 0

/-- The node has received the last generation, and lacks a skill of the last set. -/
def mistaken (sys : System) : Bool :=
  decide (sys.shared.tables.gen "n" ∈ sys.shared.received "n") &&
    (sys.shared.tables.desired "n").contains "b" && !(sys.shared.applied "n").contains "b"

theorem second_install_mistaken :
    ∃ sys : System, (center sampleSetup).Reaches (fun _ _ => True)
        (initial fun _ => Skills.freshHost) sys ∧
      sys.shared.tables.gen "n" ∈ sys.shared.received "n" ∧
      sys.shared.applied "n" ≠ sys.shared.tables.desired "n" ∧ ¬ Consistent sys.shared := by
  have hrun : ((center sampleSetup).run (fun _ _ => true) (initial fun _ => Skills.freshHost)
      installedTwice).any mistaken = true := by
    decide +kernel
  obtain ⟨sys, hreach, hcheck⟩ := Machine.exists_reaches_of_run (fun _ _ _ => trivial) hrun
  simp only [mistaken, Bool.and_eq_true, decide_eq_true_eq] at hcheck
  obtain ⟨⟨hreceived, hdesired⟩, happlied⟩ := hcheck
  have hne : sys.shared.applied "n" ≠ sys.shared.tables.desired "n" := by
    intro heq
    rw [heq, hdesired] at happlied
    cases happlied
  exact ⟨sys, hreach, hreceived, hne, fun hconsistent => hne (hconsistent.settled "n" hreceived)⟩

end Novbot.Desired
