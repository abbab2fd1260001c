import Mathlib.Logic.Function.Basic
import Novbot.Audit.Chain

/-!
# Transactions that append audit events

The transactions run under `REPEATABLE READ`: the first consistent read takes the snapshot that all
consistent reads of the transaction see, and locking reads and inserts take none.  A writer selects
the hash of the newest row that it sees, and inserts the next row behind it.

The rows form a chain as long as no transaction commits rows that others have overtaken: that had a
snapshot without rows that are committed by now (`chained_of_alone`).  The first such commit forks
the chain.  The lock of `lock_chain` keeps it from happening only where it is taken before the
snapshot (`alone_of_lockFirst`); the writers of `tags.rs` do not take it, and those of desired skills
take it after they have read.
-/

namespace Novbot.Audit

/-! ## The writers -/

/-- What a statement of a transaction has to do with the chain.  Others are left out. -/
inductive Stmt where
  /-- A consistent read. -/
  | select
  /-- `lock_chain`. -/
  | lockChain
  /-- `append_audit`, `append_audit_as` and `audit_on`: the hash is selected and the row inserted. -/
  | append (request : Request)

/-- `audit_event`. -/
def auditEvent (request : Request) : List Stmt := [.lockChain, .append request]

/-- A change of a desired skill: the reads before it, the resolution, and the operation. -/
structure Change where
  reads : Nat
  resolution : Option Request
  operation : Request

def persist (change : Change) : List Stmt :=
  .lockChain :: (change.resolution.toList.flatMap auditEvent ++ [.append change.operation])

inductive Writer where
  /-- `register_node_once`. -/
  | registerNode (changed : Option Request)
  /-- `set_center_tag` and `delete_center_tag`. -/
  | centerTag (request : Request)
  /-- `bulk`: the nodes found, the items applied, and the operation. -/
  | bulk (found : Nat) (items : List Request) (applied : Request)
  /-- `install`, `rollback`, `uninstall` and the installs of a bundle. -/
  | desired (changes : List Change)
  /-- `store_reported_result`. -/
  | denial (denied : Option Request)
  /-- `store_report` of `skill_delivery.rs`. -/
  | actual (requests : List Request)
  /-- The transactions of `targets.rs`. -/
  | target (requests : List Request)

def Writer.program : Writer → List Stmt
  | .registerNode changed => .select :: changed.toList.map .append
  | .centerTag request => [.select, .append request]
  | .bulk found items applied =>
    List.replicate found .select ++ (items.map .append ++ [.append applied])
  | .desired changes =>
    .select :: changes.flatMap fun change => List.replicate change.reads .select ++ persist change
  | .denial denied => .lockChain :: .select :: denied.toList.map .append
  | .actual requests => .lockChain :: .select :: requests.map .append
  | .target requests => requests.flatMap auditEvent

/-! ## Runs -/

structure Tx where
  /-- What is still to be run. -/
  program : List Stmt
  snapshot : Option (List Entry)
  /-- The hash that was selected for the next row. -/
  found : Option String
  inserted : List Entry

structure World where
  committed : List Entry
  nextId : Nat
  /-- Who holds the lock of the chain. -/
  holder : Option Nat
  txs : Nat → Option Tx

def World.start : World := ⟨[], 1, none, fun _ => none⟩

inductive Move where
  | opens (t : Nat) (writer : Writer)
  /-- The transaction goes on with its program: a statement, or half of an append. -/
  | goesOn (t : Nat)
  | commit (t : Nat)
  | rollback (t : Nat)

def World.put (w : World) (t : Nat) (tx : Option Tx) : World :=
  { w with txs := Function.update w.txs t tx }

def World.release (w : World) (t : Nat) : Option Nat := if w.holder = some t then none else w.holder

/-- The committed rows that the transaction sees. -/
def Tx.view (tx : Tx) (w : World) : List Entry := tx.snapshot.getD w.committed

section
variable (sha256Hex : List UInt8 → String)

def goOn (w : World) (t : Nat) (tx : Tx) : Option World :=
  match tx.program with
  | [] => none
  | .select :: rest => some (w.put t (some { tx with program := rest, snapshot := some (tx.view w) }))
  | .lockChain :: rest =>
    if w.holder = none ∨ w.holder = some t then
      some { w.put t (some { tx with program := rest }) with holder := some t }
    else none
  | .append request :: rest =>
    match tx.found with
    | none =>
      some (w.put t (some { tx with
        snapshot := some (tx.view w)
        found := some (lastHash request.trims (rowsOf (tx.view w ++ tx.inserted))) }))
    | some prev =>
      some { w.put t (some { tx with
        program := rest
        found := none
        inserted := tx.inserted ++ [⟨w.nextId, auditRow sha256Hex prev request⟩] }) with
        nextId := w.nextId + 1 }

def step (w : World) : Move → Option World
  | .opens t writer =>
    match w.txs t with
    | none => some (w.put t (some ⟨writer.program, none, none, []⟩))
    | some _ => none
  | .goesOn t => (w.txs t).bind (goOn sha256Hex w t)
  | .commit t =>
    match w.txs t with
    | some ⟨[], _, _, inserted⟩ =>
      some { w.put t none with committed := w.committed ++ inserted, holder := w.release t }
    | _ => none
  | .rollback t => (w.txs t).map fun _ => { w.put t none with holder := w.release t }

/-- The world after moves that can all be made. -/
def after (moves : List Move) : Option World :=
  moves.foldl (fun w move => w.bind (step sha256Hex · move)) (some .start)

end

/-- No row was committed since the transaction took its snapshot, or it has none to commit. -/
def Alone (w : World) (t : Nat) : Prop :=
  ∀ tx, w.txs t = some tx → tx.inserted ≠ [] → tx.snapshot = some w.committed

/-! ## What a transaction sees -/

/-- What holds of an open transaction. -/
structure TxInv (sha256Hex : List UInt8 → String) (w : World) (tx : Tx) : Prop where
  fresh : tx.snapshot = none → tx.inserted = [] ∧ tx.found = none
  seen : tx.view w <+: w.committed
  ascending : Ascending (tx.view w ++ tx.inserted)
  chained : Chained sha256Hex (tx.view w ++ tx.inserted)
  below : ∀ entry ∈ tx.inserted, entry.id < w.nextId
  found : ∀ prev, tx.found = some prev →
    prev = (newestHash ((tx.view w ++ tx.inserted).map (·.row))).getD ""

structure Inv (sha256Hex : List UInt8 → String) (w : World) : Prop where
  ascending : Ascending w.committed
  chained : Chained sha256Hex w.committed
  below : ∀ entry ∈ w.committed, entry.id < w.nextId
  tx : ∀ t tx, w.txs t = some tx → TxInv sha256Hex w tx
  /-- No id is given twice. -/
  apart : ∀ t tx, w.txs t = some tx → ∀ a ∈ tx.inserted, (∀ b ∈ w.committed, a.id ≠ b.id) ∧
    ∀ u other, u ≠ t → w.txs u = some other → ∀ b ∈ other.inserted, a.id ≠ b.id

section
variable {sha256Hex : List UInt8 → String} {w w' : World} {t : Nat} {tx : Tx}

theorem view_of_some {s : List Entry} (h : tx.snapshot = some s) (w : World) : tx.view w = s := by
  rw [Tx.view, h]
  rfl

theorem view_of_none (h : tx.snapshot = none) (w : World) : tx.view w = w.committed := by
  rw [Tx.view, h]
  rfl

/-- Others may commit rows and draw ids. -/
theorem TxInv.mono (h : TxInv sha256Hex w tx) (hascending : Ascending w'.committed)
    (hchained : Chained sha256Hex w'.committed) (hgrows : w.committed <+: w'.committed)
    (hle : w.nextId ≤ w'.nextId) : TxInv sha256Hex w' tx := by
  cases hsnapshot : tx.snapshot with
  | none =>
    obtain ⟨hinserted, hfound⟩ := h.fresh hsnapshot
    have hview := view_of_none hsnapshot w'
    refine ⟨h.fresh, ?_, ?_, ?_, ?_, ?_⟩
    · rw [hview]
    · rwa [hview, hinserted, List.append_nil]
    · rwa [hview, hinserted, List.append_nil]
    · rw [hinserted]
      exact fun entry hentry => absurd hentry List.not_mem_nil
    · rw [hfound]
      exact fun prev hprev => by cases hprev
  | some s =>
    have hview : tx.view w' = tx.view w :=
      (view_of_some hsnapshot w').trans (view_of_some hsnapshot w).symm
    refine ⟨h.fresh, ?_, ?_, ?_, ?_, ?_⟩
    · rw [hview]
      exact h.seen.trans hgrows
    · rw [hview]
      exact h.ascending
    · rw [hview]
      exact h.chained
    · exact fun entry hentry => (h.below entry hentry).trans_le hle
    · rw [hview]
      exact h.found

/-- A transaction goes on, and the rows it has inserted since have new ids. -/
theorem Inv.put (h : Inv sha256Hex w) (hcommitted : w'.committed = w.committed)
    (hle : w.nextId ≤ w'.nextId) (htxs : w'.txs = Function.update w.txs t (some tx))
    (htx : TxInv sha256Hex w' tx)
    (hnew : ∀ a ∈ tx.inserted,
      (∃ old, w.txs t = some old ∧ a ∈ old.inserted) ∨ w.nextId ≤ a.id) : Inv sha256Hex w' := by
  have hother : ∀ {u other}, u ≠ t → w'.txs u = some other → w.txs u = some other := by
    intro u other hne hu
    rwa [htxs, Function.update_of_ne hne] at hu
  have hself : ∀ {other}, w'.txs t = some other → other = tx := by
    intro other ht
    rw [htxs, Function.update_self] at ht
    exact (Option.some.inj ht).symm
  have hids : ∀ a ∈ tx.inserted, (∀ b ∈ w.committed, a.id ≠ b.id) ∧
      ∀ u other, u ≠ t → w.txs u = some other → ∀ b ∈ other.inserted, a.id ≠ b.id := by
    intro a ha
    rcases hnew a ha with ⟨old, hold, hmem⟩ | hid
    · exact h.apart t old hold a hmem
    · constructor
      · intro b hb
        have hlt := h.below b hb
        omega
      · intro u other _ hu b hb
        have hlt := (h.tx u other hu).below b hb
        omega
  constructor
  · rw [hcommitted]
    exact h.ascending
  · rw [hcommitted]
    exact h.chained
  · rw [hcommitted]
    exact fun entry hentry => (h.below entry hentry).trans_le hle
  · intro u other hu
    by_cases hne : u = t
    · subst hne
      rw [hself hu]
      exact htx
    · refine (h.tx u other (hother hne hu)).mono ?_ ?_ ?_ hle
      · rw [hcommitted]
        exact h.ascending
      · rw [hcommitted]
        exact h.chained
      · rw [hcommitted]
  · intro u other hu a ha
    rw [hcommitted]
    by_cases hne : u = t
    · subst hne
      rw [hself hu] at ha
      refine ⟨(hids a ha).1, fun v third hv hthird b hb => ?_⟩
      exact (hids a ha).2 v third hv (hother hv hthird) b hb
    · have hold := h.apart u other (hother hne hu) a ha
      refine ⟨hold.1, fun v third hv hthird b hb => ?_⟩
      by_cases hvt : v = t
      · subst hvt
        rw [hself hthird] at hb
        exact ((hids b hb).2 u other hne (hother hne hu) a ha).symm
      · exact hold.2 v third hv (hother hvt hthird) b hb

/-- A transaction ends, and leaves the committed rows in order. -/
theorem Inv.remove (h : Inv sha256Hex w) {rows : List Entry}
    (hcommitted : w'.committed = w.committed ++ rows) (hid : w'.nextId = w.nextId)
    (htxs : w'.txs = Function.update w.txs t none)
    (hrows : rows = [] ∨ ∃ tx, w.txs t = some tx ∧ rows = tx.inserted)
    (hascending : Ascending (w.committed ++ rows))
    (hchained : Chained sha256Hex (w.committed ++ rows)) : Inv sha256Hex w' := by
  have hother : ∀ {u other}, w'.txs u = some other → u ≠ t ∧ w.txs u = some other := by
    intro u other hu
    by_cases hne : u = t
    · subst hne
      rw [htxs, Function.update_self] at hu
      cases hu
    · rw [htxs, Function.update_of_ne hne] at hu
      exact ⟨hne, hu⟩
  have hbelow : ∀ entry ∈ rows, entry.id < w.nextId := by
    rcases hrows with rfl | ⟨tx, htx, rfl⟩
    · exact fun entry hentry => absurd hentry List.not_mem_nil
    · exact (h.tx t tx htx).below
  constructor
  · rwa [hcommitted]
  · rwa [hcommitted]
  · rw [hcommitted, hid]
    intro entry hentry
    rcases List.mem_append.mp hentry with hentry | hentry
    · exact h.below entry hentry
    · exact hbelow entry hentry
  · intro u other hu
    obtain ⟨-, hold⟩ := hother hu
    refine (h.tx u other hold).mono ?_ ?_ ?_ hid.ge
    · rwa [hcommitted]
    · rwa [hcommitted]
    · rw [hcommitted]
      exact List.prefix_append _ _
  · intro u other hu a ha
    obtain ⟨hne, hold⟩ := hother hu
    obtain ⟨hfirst, hrest⟩ := h.apart u other hold a ha
    rw [hcommitted]
    constructor
    · intro b hb
      rcases List.mem_append.mp hb with hb | hb
      · exact hfirst b hb
      · rcases hrows with rfl | ⟨tx, htx, rfl⟩
        · cases hb
        · exact hrest t tx hne.symm htx b hb
    · intro v third hv hthird b hb
      exact hrest v third hv (hother hthird).2 b hb

theorem inv_start : Inv sha256Hex .start :=
  ⟨.nil, chained_nil, fun _ hentry => absurd hentry List.not_mem_nil, fun _ _ h => (by cases h),
    fun _ _ h => (by cases h)⟩

theorem Inv.goOn (hsha : Prints sha256Hex) (h : Inv sha256Hex w) (htx : w.txs t = some tx)
    (hstep : goOn sha256Hex w t tx = some w') : Inv sha256Hex w' := by
  have hinv := h.tx t tx htx
  have hold : ∀ a ∈ tx.inserted,
      (∃ old, w.txs t = some old ∧ a ∈ old.inserted) ∨ w.nextId ≤ a.id :=
    fun a ha => .inl ⟨tx, htx, ha⟩
  rw [Audit.goOn] at hstep
  split at hstep
  · cases hstep
  · cases hstep
    exact h.put rfl le_rfl rfl ⟨fun hnone => (by cases hnone), hinv.seen, hinv.ascending,
      hinv.chained, hinv.below, hinv.found⟩ hold
  · split at hstep
    · cases hstep
      exact h.put rfl le_rfl rfl ⟨hinv.fresh, hinv.seen, hinv.ascending, hinv.chained, hinv.below,
        hinv.found⟩ hold
    · cases hstep
  · next request rest _ =>
    split at hstep
    · cases hstep
      refine h.put rfl le_rfl rfl ⟨fun hnone => (by cases hnone), hinv.seen, hinv.ascending,
        hinv.chained, hinv.below, fun prev hprev => ?_⟩ hold
      cases hprev
      rw [hinv.ascending.rowsOf]
      exact lastHash_eq hsha request.trims hinv.chained.digest
    · next prev hprev =>
      cases hstep
      obtain ⟨s, hsnapshot⟩ : ∃ s, tx.snapshot = some s := by
        cases hsnapshot : tx.snapshot with
        | none =>
          rw [(hinv.fresh hsnapshot).2] at hprev
          cases hprev
        | some s => exact ⟨s, rfl⟩
      have hrow := auditRow_continues hsha hinv.chained.digest request
      rw [← hinv.found prev hprev] at hrow
      have hbelow : ∀ entry ∈ tx.view w ++ tx.inserted, entry.id < w.nextId := by
        intro entry hentry
        rcases List.mem_append.mp hentry with hentry | hentry
        · exact h.below entry (hinv.seen.subset hentry)
        · exact hinv.below entry hentry
      have hascending : Ascending ((tx.view w ++ tx.inserted) ++
          [⟨w.nextId, auditRow sha256Hex prev request⟩]) := by
        refine List.pairwise_append.mpr ⟨hinv.ascending, List.pairwise_singleton _ _, ?_⟩
        intro a ha b hb
        rw [List.mem_singleton.mp hb]
        exact hbelow a ha
      have hchained := chained_append hascending hinv.chained hrow
      rw [List.append_assoc] at hascending hchained
      refine h.put rfl (Nat.le_succ _) rfl ⟨fun hnone => ?_, hinv.seen, hascending, hchained, ?_,
        fun _ hnone => (by cases hnone)⟩ ?_
      · rw [hsnapshot] at hnone
        cases hnone
      · intro entry hentry
        rcases List.mem_append.mp hentry with hentry | hentry
        · exact Nat.lt_succ_of_lt (hinv.below entry hentry)
        · rw [List.mem_singleton.mp hentry]
          exact Nat.lt_succ_self _
      · intro a ha
        rcases List.mem_append.mp ha with ha | ha
        · exact hold a ha
        · rw [List.mem_singleton.mp ha]
          exact .inr le_rfl

/-- How a transaction commits. -/
theorem step_commit (hstep : step sha256Hex w (.commit t) = some w') : ∃ tx, w.txs t = some tx ∧
    w'.committed = w.committed ++ tx.inserted ∧ w'.nextId = w.nextId ∧
    w'.txs = Function.update w.txs t none ∧ w'.holder = w.release t := by
  rw [step] at hstep
  split at hstep
  · next htx =>
    cases hstep
    exact ⟨_, htx, rfl, rfl, rfl, rfl⟩
  · cases hstep

/-- Every step keeps the invariant, except a commit of rows that others have overtaken. -/
theorem Inv.step (hsha : Prints sha256Hex) (h : Inv sha256Hex w) {move : Move}
    (halone : ∀ t, move = .commit t → Alone w t) (hstep : step sha256Hex w move = some w') :
    Inv sha256Hex w' := by
  cases move with
  | opens t writer =>
    rw [Audit.step] at hstep
    split at hstep
    · cases hstep
      refine h.put rfl le_rfl rfl ⟨fun _ => ⟨rfl, rfl⟩, List.prefix_refl _, ?_, ?_, ?_, ?_⟩ ?_
      · exact (List.append_nil w.committed).symm ▸ h.ascending
      · exact (List.append_nil w.committed).symm ▸ h.chained
      · exact fun entry hentry => absurd hentry List.not_mem_nil
      · exact fun prev hprev => by cases hprev
      · exact fun a ha => absurd ha List.not_mem_nil
    · cases hstep
  | goesOn t =>
    obtain ⟨tx, htx, hstep⟩ := Option.bind_eq_some_iff.mp hstep
    exact h.goOn hsha htx hstep
  | commit t =>
    obtain ⟨tx, htx, hcommitted, hid, htxs, -⟩ := step_commit hstep
    have hinv := h.tx t tx htx
    have hview : Ascending (w.committed ++ tx.inserted) ∧
        Chained sha256Hex (w.committed ++ tx.inserted) := by
      by_cases hnone : tx.inserted = []
      · rw [hnone, List.append_nil]
        exact ⟨h.ascending, h.chained⟩
      · have hsame := view_of_some (halone t rfl tx htx hnone) w
        rw [← hsame]
        exact ⟨hsame ▸ hinv.ascending, hsame ▸ hinv.chained⟩
    exact h.remove hcommitted hid htxs (.inr ⟨tx, htx, rfl⟩) hview.1 hview.2
  | rollback t =>
    obtain ⟨tx, -, heq⟩ := Option.map_eq_some_iff.mp hstep
    subst heq
    have hnone : w.committed ++ [] = w.committed := List.append_nil _
    exact h.remove hnone.symm rfl rfl (.inl rfl) (hnone.symm ▸ h.ascending) (hnone.symm ▸ h.chained)

/-- A commit of rows that others have overtaken puts two rows behind one. -/
theorem Inv.forks (h : Inv sha256Hex w) (hraced : ¬ Alone w t)
    (hstep : Audit.step sha256Hex w (.commit t) = some w') : Forked w'.committed := by
  obtain ⟨tx, htx, hcommitted, -⟩ := step_commit hstep
  have hinv := h.tx t tx htx
  have hovertaken : tx.inserted ≠ [] ∧ tx.snapshot ≠ some w.committed := by
    by_contra hnot
    refine hraced fun other hother hne => ?_
    rw [htx] at hother
    cases hother
    by_contra hsnapshot
    exact hnot ⟨hne, hsnapshot⟩
  cases hsnapshot : tx.snapshot with
  | none => exact absurd (hinv.fresh hsnapshot).1 hovertaken.1
  | some s =>
    have hview := view_of_some hsnapshot w
    obtain ⟨more, hmore⟩ := hview ▸ hinv.seen
    cases more with
    | nil =>
      rw [List.append_nil] at hmore
      exact absurd (hsnapshot.trans (congrArg some hmore)) hovertaken.2
    | cons y more =>
      obtain ⟨x, rest, hinserted⟩ := List.exists_cons_of_ne_nil hovertaken.1
      have hy := (chained_iff h.ascending).mp h.chained s y more hmore.symm
      have hx := (chained_iff hinv.ascending).mp hinv.chained s x rest
        (by rw [hview, hinserted])
      have hyMem : y ∈ w.committed := hmore ▸ List.mem_append_right _ (.head _)
      have hxMem : x ∈ tx.inserted := hinserted ▸ .head _
      rw [hcommitted]
      exact ⟨x, List.mem_append_right _ hxMem, y, List.mem_append_left _ hyMem,
        (h.apart t tx htx x hxMem).1 y hyMem, hx.prevHash.trans hy.prevHash.symm⟩

end

/-! ## Runs in which nobody is overtaken -/

section
variable {sha256Hex : List UInt8 → String} {moves : List Move} {w : World}

/-- No transaction of the run commits rows that others have overtaken. -/
def NoneOvertaken (sha256Hex : List UInt8 → String) (moves : List Move) : Prop :=
  ∀ before t, before ++ [.commit t] <+: moves → ∀ w, after sha256Hex before = some w → Alone w t

theorem NoneOvertaken.left {before : List Move} (h : NoneOvertaken sha256Hex moves)
    (hbefore : before <+: moves) : NoneOvertaken sha256Hex before :=
  fun earlier t hearlier => h earlier t (hearlier.trans hbefore)

theorem after_append (before : List Move) (move : Move) :
    after sha256Hex (before ++ [move]) =
      (after sha256Hex before).bind fun w => step sha256Hex w move := by
  rw [after, List.foldl_append]
  rfl

theorem inv_after (hsha : Prints sha256Hex) (h : NoneOvertaken sha256Hex moves)
    (hw : after sha256Hex moves = some w) : Inv sha256Hex w := by
  induction moves using List.reverseRecOn generalizing w with
  | nil =>
    cases hw
    exact inv_start
  | append_singleton moves move ih =>
    rw [after_append] at hw
    obtain ⟨w₀, hbefore, hstep⟩ := Option.bind_eq_some_iff.mp hw
    refine (ih (h.left (List.prefix_append _ _)) hbefore).step hsha (fun t hcommit => ?_) hstep
    subst hcommit
    exact h moves t (List.prefix_refl _) w₀ hbefore

end

/-- As long as no transaction commits rows that others have overtaken, the committed rows form one
chain, and the first commit of such rows forks it. -/
theorem chained_of_alone {sha256Hex : List UInt8 → String} (hsha : Prints sha256Hex)
    (moves : List Move) :
    (NoneOvertaken sha256Hex moves → ∀ before, before <+: moves →
      ∀ w, after sha256Hex before = some w → Chained sha256Hex w.committed) ∧
    ∀ before t, before ++ [.commit t] <+: moves → NoneOvertaken sha256Hex before →
      ∀ w w', after sha256Hex before = some w → step sha256Hex w (.commit t) = some w' →
        ¬ Alone w t → Forked w'.committed := by
  constructor
  · intro h before hbefore w hw
    exact (inv_after hsha (h.left hbefore) hw).chained
  · intro before t _ h w w' hw hstep hraced
    exact (inv_after hsha h hw).forks hraced hstep

/-! ## The lock of the chain -/

/-- The lock is taken before anything is read. -/
def LockFirst (program : List Stmt) : Prop := ∀ stmt ∈ program.head?, stmt = .lockChain

/-- The transactions of `targets.rs` and the two writers of reports. -/
theorem lockFirst_program : (∀ denied, LockFirst (Writer.denial denied).program) ∧
    (∀ requests, LockFirst (Writer.actual requests).program) ∧
    ∀ requests, LockFirst (Writer.target requests).program := by
  refine ⟨fun denied stmt h => ?_, fun requests stmt h => ?_, fun requests stmt h => ?_⟩
  · cases h
    rfl
  · cases h
    rfl
  · cases requests with
    | nil => cases h
    | cons request requests =>
      cases h
      rfl

/-- What holds of an open transaction when all take the lock first: whoever does not have it has
read nothing. -/
structure Locked (w : World) (t : Nat) (tx : Tx) : Prop where
  view : tx.view w = w.committed
  held : w.holder = some t ∨ tx.snapshot = none ∧ LockFirst tx.program
  fresh : tx.snapshot = none → tx.inserted = [] ∧ tx.found = none

section
variable {sha256Hex : List UInt8 → String} {w w' : World} {t : Nat} {tx : Tx}

theorem Locked.alone (h : ∀ tx, w.txs t = some tx → Locked w t tx) : Alone w t := by
  intro tx htx hne
  cases hsnapshot : tx.snapshot with
  | none => exact absurd ((h tx htx).fresh hsnapshot).1 hne
  | some s => rw [← (h tx htx).view, view_of_some hsnapshot]

/-- Who runs a statement that is not the lock has the lock. -/
theorem Locked.holds (h : Locked w t tx) {stmt : Stmt} {rest : List Stmt}
    (hprogram : tx.program = stmt :: rest) (hne : stmt ≠ .lockChain) : w.holder = some t := by
  rcases h.held with hheld | ⟨-, hfirst⟩
  · exact hheld
  · rw [hprogram] at hfirst
    exact absurd (hfirst stmt rfl) hne

theorem locked_put (h : ∀ u other, w.txs u = some other → Locked w u other)
    (hcommitted : w'.committed = w.committed)
    (hholder : ∀ u, u ≠ t → w.holder = some u → w'.holder = some u)
    (htxs : w'.txs = Function.update w.txs t (some tx)) (htx : Locked w' t tx) :
    ∀ u other, w'.txs u = some other → Locked w' u other := by
  intro u other hu
  rw [htxs] at hu
  by_cases hne : u = t
  · subst hne
    rw [Function.update_self] at hu
    cases hu
    exact htx
  · rw [Function.update_of_ne hne] at hu
    have hother := h u other hu
    refine ⟨?_, hother.held.imp_left (hholder u hne), hother.fresh⟩
    have hview := hother.view
    rw [Tx.view] at hview ⊢
    rwa [hcommitted]

theorem locked_remove (h : ∀ u other, w.txs u = some other → Locked w u other) {rows : List Entry}
    (hcommitted : w'.committed = w.committed ++ rows) (hholder : w'.holder = w.release t)
    (htxs : w'.txs = Function.update w.txs t none) (hrows : rows ≠ [] → w.holder = some t) :
    ∀ u other, w'.txs u = some other → Locked w' u other := by
  intro u other hu
  rw [htxs] at hu
  by_cases hne : u = t
  · subst hne
    rw [Function.update_self] at hu
    cases hu
  · rw [Function.update_of_ne hne] at hu
    have hother := h u other hu
    have hkept : w.holder = some u → w'.holder = some u := by
      intro hheld
      rw [hholder, World.release, hheld, if_neg fun heq => hne (Option.some.inj heq)]
    refine ⟨?_, hother.held.imp_left hkept, hother.fresh⟩
    cases hsnapshot : other.snapshot with
    | none => exact view_of_none hsnapshot w'
    | some s =>
      have hnone : rows = [] := by
        by_contra hsome
        rcases hother.held with hheld | ⟨hfresh, -⟩
        · rw [hrows hsome] at hheld
          exact hne (Option.some.inj hheld).symm
        · rw [hsnapshot] at hfresh
          cases hfresh
      rw [hcommitted, hnone, List.append_nil, view_of_some hsnapshot, ← hother.view,
        view_of_some hsnapshot]

theorem locked_goOn (h : ∀ u other, w.txs u = some other → Locked w u other)
    (htx : w.txs t = some tx) (hstep : goOn sha256Hex w t tx = some w') :
    ∀ u other, w'.txs u = some other → Locked w' u other := by
  have hlocked := h t tx htx
  rw [goOn] at hstep
  split at hstep
  · cases hstep
  · next rest hprogram =>
    cases hstep
    have hheld := hlocked.holds hprogram (fun heq => by cases heq)
    exact locked_put h rfl (fun _ _ hu => hu) rfl
      ⟨hlocked.view, .inl hheld, fun hnone => by cases hnone⟩
  · split at hstep
    · next hfree =>
      cases hstep
      refine locked_put h rfl (fun u hne hu => ?_) rfl ⟨hlocked.view, .inl rfl, hlocked.fresh⟩
      rcases hfree with hnone | hmine
      · rw [hnone] at hu
        cases hu
      · rw [hmine] at hu
        exact absurd (Option.some.inj hu).symm hne
    · cases hstep
  · next request rest hprogram =>
    have hheld := hlocked.holds hprogram (fun heq => by cases heq)
    split at hstep
    · cases hstep
      exact locked_put h rfl (fun _ _ hu => hu) rfl
        ⟨hlocked.view, .inl hheld, fun hnone => by cases hnone⟩
    · next prev hprev =>
      cases hstep
      refine locked_put h rfl (fun _ _ hu => hu) rfl ⟨hlocked.view, .inl hheld, fun hnone => ?_⟩
      rw [(hlocked.fresh hnone).2] at hprev
      cases hprev

theorem locked_step (h : ∀ u other, w.txs u = some other → Locked w u other) {move : Move}
    (hopens : ∀ t writer, move = .opens t writer → LockFirst writer.program)
    (hstep : step sha256Hex w move = some w') :
    ∀ u other, w'.txs u = some other → Locked w' u other := by
  cases move with
  | opens t writer =>
    rw [step] at hstep
    split at hstep
    · cases hstep
      exact locked_put h rfl (fun _ _ hu => hu) rfl
        ⟨rfl, .inr ⟨rfl, hopens t writer rfl⟩, fun _ => ⟨rfl, rfl⟩⟩
    · cases hstep
  | goesOn t =>
    obtain ⟨tx, htx, hstep⟩ := Option.bind_eq_some_iff.mp hstep
    exact locked_goOn h htx hstep
  | commit t =>
    obtain ⟨tx, htx, hcommitted, -, htxs, hholder⟩ := step_commit hstep
    refine locked_remove h hcommitted hholder htxs fun hne => ?_
    rcases (h t tx htx).held with hheld | ⟨hfresh, -⟩
    · exact hheld
    · exact absurd ((h t tx htx).fresh hfresh).1 hne
  | rollback t =>
    obtain ⟨tx, -, heq⟩ := Option.map_eq_some_iff.mp hstep
    subst heq
    exact locked_remove h (List.append_nil _).symm rfl rfl (fun hne => absurd rfl hne)

theorem locked_after {moves : List Move}
    (h : ∀ t writer, .opens t writer ∈ moves → LockFirst writer.program)
    (hw : after sha256Hex moves = some w) : ∀ t tx, w.txs t = some tx → Locked w t tx := by
  induction moves using List.reverseRecOn generalizing w with
  | nil =>
    cases hw
    intro t tx htx
    cases htx
  | append_singleton moves move ih =>
    rw [after_append] at hw
    obtain ⟨w₀, hbefore, hstep⟩ := Option.bind_eq_some_iff.mp hw
    have hlocked := ih (fun t writer hmem => h t writer (List.mem_append_left _ hmem)) hbefore
    refine locked_step hlocked (fun t writer heq => ?_) hstep
    exact h t writer (List.mem_append_right _ (heq ▸ .head _))

/-- Nobody is overtaken when all transactions take the lock before they read. -/
theorem alone_of_lockFirst {moves : List Move}
    (h : ∀ t writer, .opens t writer ∈ moves → LockFirst writer.program) :
    NoneOvertaken sha256Hex moves := by
  intro before t hbefore w hw
  refine Locked.alone fun tx htx => locked_after (fun u writer hmem => ?_) hw t tx htx
  exact h u writer (hbefore.subset (List.mem_append_left _ hmem))

end

/-! ## Two writers with the lock, and two without it -/

/-- What `refuse` appends for a dispatch of a specification. -/
def refusal (specId : String) : Request where
  trims := false
  action := .targetRefused
  targetId := specId
  detail := .obj [("code", .str "target_changed"), ("prod_node_ids", .arr []),
    ("selector", .str "env=dev")]
  spelled := rfl

/-- What `set_center_tag` appends where a node gets `env=dev`. -/
def tagSet (nodeId : String) : Request where
  trims := false
  action := .tagSet
  targetId := nodeId
  detail := .obj [("effective_after", .str "dev"), ("effective_before", .null), ("key", .str "env"),
    ("new_value", .str "dev"), ("node_value", .null), ("old_value", .null), ("operation_id", .null),
    ("prod_confirmed", .bool false)]
  spelled := rfl

/-- The inputs of the events below, with the digests that `sha256_hex` has of them. -/
def digested : List (List UInt8 × String) :=
  let first := "e34184b766a3343c78afd1f245cc9bad09c730896972084e29d649db9bf0ce54"
  let input := fun prev (request : Request) =>
    auditInput prev request.action.name request.targetId request.detailJson
  [(input "" (refusal "s1"), first),
    (input first (refusal "s2"), "3589ef6cb1c24eff9ecc4367125963a7cab7d9e80762b9efdab7d707e35d05a6"),
    (input "" (tagSet "n1"), "79722c3e92010d7412215f329bb872888159d33e6a3bf6fca0ef69e6dd500540"),
    (input "" (tagSet "n2"), "19b9e5c9d10fed2a1876be3eb0b0a637e334ee9d60de393ac31ad4857d8fcdff")]

def digests (bytes : List UInt8) : String := (digested.lookup bytes).getD "0"

theorem digests_prints : Prints digests := by
  have hall : ∀ digest ∈ digested.map (·.2), digest ≠ "" ∧ digest.toList.all isHex = true := by
    decide +kernel
  have hcases : ∀ bytes, digests bytes ≠ "" ∧ IsHash (digests bytes) := by
    intro bytes
    rw [digests]
    cases hlookup : digested.lookup bytes with
    | none => exact ⟨by decide, List.all_eq_true.mp (by decide)⟩
    | some digest =>
      obtain ⟨front, rest, hsplit, -⟩ := List.lookup_eq_some_iff.mp hlookup
      have hmem : digest ∈ digested.map (·.2) := by
        rw [hsplit, List.map_append]
        exact List.mem_append_right _ (.head _)
      exact ⟨(hall digest hmem).1, List.all_eq_true.mp (hall digest hmem).2⟩
  exact ⟨fun bytes => (hcases bytes).2, fun bytes => (hcases bytes).1⟩

/-- Two dispatches are refused at once.  The second one waits for the lock. -/
def refusals : List Move :=
  [.opens 1 (.target [refusal "s1"]), .opens 2 (.target [refusal "s2"]), .goesOn 1, .goesOn 1,
    .goesOn 1, .commit 1, .goesOn 2, .goesOn 2, .goesOn 2, .commit 2]

/-- Both are in the chain. -/
theorem refusals_chained : ∃ w, after digests refusals = some w ∧ w.committed.length = 2 ∧
    Chained digests w.committed := by
  have hlength : (after digests refusals).map (·.committed.length) = some 2 := by decide +kernel
  obtain ⟨w, hw, hlength⟩ := Option.map_eq_some_iff.mp hlength
  have hfirst : ∀ t writer, .opens t writer ∈ refusals → LockFirst writer.program := by
    intro t writer hmem
    simp only [refusals, List.mem_cons, Move.opens.injEq, reduceCtorEq, or_false,
      List.not_mem_nil] at hmem
    rcases hmem with ⟨-, rfl⟩ | ⟨-, rfl⟩
    · exact lockFirst_program.2.2 _
    · exact lockFirst_program.2.2 _
  exact ⟨w, hw, hlength, (chained_of_alone digests_prints refusals).1 (alone_of_lockFirst hfirst)
    refusals (List.prefix_refl _) w hw⟩

/-- Tags of two nodes are set at once.  Each request has the lock of its node only. -/
def tagsSet : List Move :=
  [.opens 1 (.centerTag (tagSet "n1")), .opens 2 (.centerTag (tagSet "n2")), .goesOn 1, .goesOn 2,
    .goesOn 1, .goesOn 2, .goesOn 1, .goesOn 2, .commit 1, .commit 2]

/-- The second row follows no other. -/
theorem tagsSet_forked : ∃ w, after digests tagsSet = some w ∧ ¬ Chained digests w.committed := by
  have hrows : (after digests tagsSet).map (fun w => w.committed.map fun entry =>
      (entry.id, entry.row.prevHash)) = some [(1, none), (2, none)] := by decide +kernel
  obtain ⟨w, hw, hrows⟩ := Option.map_eq_some_iff.mp hrows
  obtain ⟨a, rest, hcommitted, ha, hrest⟩ := List.map_eq_cons_iff.mp hrows
  obtain ⟨b, rest, rfl, hb, hnil⟩ := List.map_eq_cons_iff.mp hrest
  cases List.map_eq_nil_iff.mp hnil
  obtain ⟨hid, -⟩ := Prod.mk.inj ha
  obtain ⟨hid', hnone⟩ := Prod.mk.inj hb
  have hascending : Ascending [a, b] := by
    simp [Ascending, hid, hid']
  refine ⟨w, hw, fun hchained => ?_⟩
  rw [hcommitted] at hchained
  have hprev := ((chained_iff hascending).mp hchained [a] b [] rfl).prevHash
  rw [hnone] at hprev
  cases hprev

end Novbot.Audit
