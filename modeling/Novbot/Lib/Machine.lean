import Novbot.Lib.Program
import Mathlib.Data.List.Infix
import Mathlib.Logic.Function.Basic

/-!
# Threads that share a state

A system is a shared state and a thread for each name.  A thread is the rest of
its program with what its history amounts to.  A move lets one thread perform
its next operation, or is an event of the environment.  Operations are atomic,
and every interleaving of them is a sequence of moves.

`step` is a function of the state and the move, so a run can be evaluated.  A
`Choice` resolves what an operation leaves open (a fault, a fresh name).

`Reaches ok` is reachability along moves that satisfy `ok`, and `Along ok` keeps
the run.  When the machine obeys a contract, every thread of a reachable system
meets it (`sound_of_reaches`), so an invariant only has to be preserved by
operations whose precondition holds (`Reaches.invariant`, and `Along.invariant`
for what depends on the run so far).
-/

namespace Concurrent

variable {Op : Type} {Reply : Op → Type} {Tid Loc Shared Choice Event : Type}

/-- The rest of a program and the history of the thread that runs it. -/
structure Thread (Reply : Op → Type) (Loc : Type) where
  prog : Program Reply Unit
  loc : Loc

structure Sys (Reply : Op → Type) (Tid Loc Shared : Type) where
  shared : Shared
  threads : Tid → Thread Reply Loc

/-- The histories of the threads. -/
def Sys.loc (sys : Sys Reply Tid Loc Shared) (t : Tid) : Loc := (sys.threads t).loc

/-- The thread has nothing left to do. -/
def Sys.idle (sys : Sys Reply Tid Loc Shared) (t : Tid) : Bool :=
  match (sys.threads t).prog with
  | .done _ => true
  | .perform _ _ => false

/-- The next operation of the thread. -/
def Sys.about (sys : Sys Reply Tid Loc Shared) (t : Tid) (op : Op) : Prop :=
  ∃ next, (sys.threads t).prog = .perform op next

inductive Move (Tid Choice Event : Type) where
  /-- The thread performs its next operation. -/
  | act (t : Tid) (c : Choice)
  | event (e : Event)
  deriving Repr

structure Machine (Reply : Op → Type) (Tid Loc Shared Choice Event : Type) where
  /-- The reply and the state after an operation, or nothing when it cannot
  take place now.  It may depend on what the threads did before. -/
  exec : Tid → (Tid → Loc) → (op : Op) → Choice → Shared → Option (Reply op × Shared)
  note : Tid → (op : Op) → Reply op → Loc → Loc
  fire : Event → Sys Reply Tid Loc Shared → Option (Sys Reply Tid Loc Shared)

namespace Machine

variable [DecidableEq Tid] (M : Machine Reply Tid Loc Shared Choice Event)

def act (sys : Sys Reply Tid Loc Shared) (t : Tid) (c : Choice) :
    Option (Sys Reply Tid Loc Shared) :=
  match (sys.threads t).prog with
  | .done _ => none
  | .perform op next =>
    (M.exec t sys.loc op c sys.shared).map fun (reply, shared) =>
      ⟨shared, Function.update sys.threads t ⟨next reply, M.note t op reply (sys.loc t)⟩⟩

def step (sys : Sys Reply Tid Loc Shared) :
    Move Tid Choice Event → Option (Sys Reply Tid Loc Shared)
  | .act t c => M.act sys t c
  | .event e => M.fire e sys

/-- Performs moves that `allow` allows. -/
def run (allow : Sys Reply Tid Loc Shared → Move Tid Choice Event → Bool)
    (sys : Sys Reply Tid Loc Shared) : List (Move Tid Choice Event) →
    Option (Sys Reply Tid Loc Shared)
  | [] => some sys
  | m :: ms => if allow sys m then (M.step sys m).bind fun sys' => run allow sys' ms else none

/-- The system after thread `t` performed an operation. -/
def after (sys : Sys Reply Tid Loc Shared) (t : Tid) (op : Op)
    (next : Reply op → Program Reply Unit) (reply : Reply op) (shared : Shared) :
    Sys Reply Tid Loc Shared :=
  ⟨shared, Function.update sys.threads t ⟨next reply, M.note t op reply (sys.loc t)⟩⟩

theorem act_eq_some {sys sys' : Sys Reply Tid Loc Shared} {t : Tid} {c : Choice} :
    M.act sys t c = some sys' ↔
      ∃ op next reply shared, (sys.threads t).prog = .perform op next ∧
        M.exec t sys.loc op c sys.shared = some (reply, shared) ∧
        sys' = M.after sys t op next reply shared := by
  unfold act
  cases hp : (sys.threads t).prog with
  | done _ => simp
  | perform op next =>
    simp only [Option.map_eq_some_iff, Prod.exists, Program.perform.injEq]
    constructor
    · rintro ⟨reply, shared, he, rfl⟩
      exact ⟨op, next, reply, shared, ⟨rfl, HEq.rfl⟩, he, rfl⟩
    · rintro ⟨op', next', reply, shared, ⟨rfl, hn⟩, he, rfl⟩
      cases hn
      exact ⟨reply, shared, he, rfl⟩

@[simp] theorem after_shared (sys : Sys Reply Tid Loc Shared) (t : Tid) (op : Op)
    (next : Reply op → Program Reply Unit) (reply : Reply op) (shared : Shared) :
    (M.after sys t op next reply shared).shared = shared := rfl

theorem loc_update (sys : Sys Reply Tid Loc Shared) (t : Tid) (thread : Thread Reply Loc)
    (shared : Shared) :
    (⟨shared, Function.update sys.threads t thread⟩ : Sys Reply Tid Loc Shared).loc =
      Function.update sys.loc t thread.loc := by
  funext t'
  by_cases h : t' = t
  · subst h
    simp [Sys.loc]
  · simp [Sys.loc, h]

theorem after_loc (sys : Sys Reply Tid Loc Shared) (t : Tid) (op : Op)
    (next : Reply op → Program Reply Unit) (reply : Reply op) (shared : Shared) :
    (M.after sys t op next reply shared).loc =
      Function.update sys.loc t (M.note t op reply (sys.loc t)) :=
  loc_update sys t _ shared

/-! ## Reachability -/

/-- Reachable from `init` along moves that satisfy `ok` in the state they start
from. -/
inductive Reaches (ok : Sys Reply Tid Loc Shared → Move Tid Choice Event → Prop)
    (init : Sys Reply Tid Loc Shared) : Sys Reply Tid Loc Shared → Prop where
  | refl : Reaches ok init init
  | step {sys sys' : Sys Reply Tid Loc Shared} {m : Move Tid Choice Event} :
    Reaches ok init sys → ok sys m → M.step sys m = some sys' → Reaches ok init sys'

/-- A run from `init` along moves that satisfy `ok`, as the states it left and
how it left them, newest first. -/
inductive Along (ok : Sys Reply Tid Loc Shared → Move Tid Choice Event → Prop)
    (init : Sys Reply Tid Loc Shared) :
    List (Sys Reply Tid Loc Shared × Move Tid Choice Event) → Sys Reply Tid Loc Shared → Prop where
  | refl : Along ok init [] init
  | step {past : List (Sys Reply Tid Loc Shared × Move Tid Choice Event)}
    {sys sys' : Sys Reply Tid Loc Shared} {m : Move Tid Choice Event} :
    Along ok init past sys → ok sys m → M.step sys m = some sys' →
    Along ok init ((sys, m) :: past) sys'

variable {M} {ok : Sys Reply Tid Loc Shared → Move Tid Choice Event → Prop}
  {init : Sys Reply Tid Loc Shared}

theorem Along.reaches {past : List (Sys Reply Tid Loc Shared × Move Tid Choice Event)}
    {sys : Sys Reply Tid Loc Shared} (h : M.Along ok init past sys) : M.Reaches ok init sys := by
  induction h with
  | refl => exact .refl
  | step _ hok hs ih => exact .step ih hok hs

theorem Reaches.along {sys : Sys Reply Tid Loc Shared} (h : M.Reaches ok init sys) :
    ∃ past, M.Along ok init past sys := by
  induction h with
  | refl => exact ⟨[], .refl⟩
  | step _ hok hs ih =>
    obtain ⟨past, hpast⟩ := ih
    exact ⟨_, .step hpast hok hs⟩

theorem Reaches.mono {ok' : Sys Reply Tid Loc Shared → Move Tid Choice Event → Prop}
    {sys : Sys Reply Tid Loc Shared} (h : M.Reaches ok init sys)
    (himp : ∀ sys m, ok sys m → ok' sys m) : M.Reaches ok' init sys := by
  induction h with
  | refl => exact .refl
  | step _ hok hs ih => exact .step ih (himp _ _ hok) hs

variable {allow : Sys Reply Tid Loc Shared → Move Tid Choice Event → Bool}

/-- A run along allowed moves reaches its last state. -/
theorem reaches_of_run {sys sys' : Sys Reply Tid Loc Shared} {ms : List (Move Tid Choice Event)}
    (hreach : M.Reaches ok init sys) (hallow : ∀ sys m, allow sys m = true → ok sys m)
    (hrun : M.run allow sys ms = some sys') : M.Reaches ok init sys' := by
  induction ms generalizing sys with
  | nil =>
    cases hrun
    exact hreach
  | cons m ms ih =>
    unfold run at hrun
    split at hrun
    · next ha =>
      obtain ⟨mid, hs, hrest⟩ := Option.bind_eq_some_iff.mp hrun
      exact ih (.step hreach (hallow sys m ha) hs) hrest
    · cases hrun

/-- The state after a run that passes a check is reachable. -/
theorem exists_reaches_of_run {ms : List (Move Tid Choice Event)}
    {check : Sys Reply Tid Loc Shared → Bool} (hallow : ∀ sys m, allow sys m = true → ok sys m)
    (h : (M.run allow init ms).any check = true) :
    ∃ sys, M.Reaches ok init sys ∧ check sys = true := by
  obtain ⟨sys, hrun, hcheck⟩ := (Option.any_eq_true _ _).mp h
  exact ⟨sys, reaches_of_run .refl hallow hrun, hcheck⟩

/-! ## Contracts of a machine -/

/-- A contract for each thread, with the condition in which it rests between
its programs. -/
structure Terms (Reply : Op → Type) (Tid Loc : Type) where
  pre : Tid → Op → Loc → Prop
  gives : Tid → (op : Op) → Loc → Reply op → Prop
  rest : Tid → Loc → Prop

/-- The contract of one thread. -/
def Terms.contract (T : Terms Reply Tid Loc) (M : Machine Reply Tid Loc Shared Choice Event)
    (t : Tid) : Contract Reply Loc :=
  ⟨T.pre t, T.gives t, M.note t⟩

/-- Every thread meets its contract on what is left of its program. -/
def Sound (M : Machine Reply Tid Loc Shared Choice Event) (T : Terms Reply Tid Loc)
    (sys : Sys Reply Tid Loc Shared) : Prop :=
  ∀ t, (sys.threads t).prog.Meets (T.contract M t) (fun _ => T.rest t) (sys.loc t)

/-- Replies are as the contract says, and events start sound programs. -/
structure Obeys (M : Machine Reply Tid Loc Shared Choice Event) (T : Terms Reply Tid Loc) :
    Prop where
  exec : ∀ t locs op c s reply s', T.pre t op (locs t) →
    M.exec t locs op c s = some (reply, s') → T.gives t op (locs t) reply
  fire : ∀ e sys sys', M.Sound T sys → M.fire e sys = some sys' → M.Sound T sys'

variable {T : Terms Reply Tid Loc}

omit [DecidableEq Tid] in
theorem Sound.pre {sys : Sys Reply Tid Loc Shared} {t : Tid} {op : Op} (h : M.Sound T sys)
    (hop : sys.about t op) : T.pre t op (sys.loc t) := by
  obtain ⟨next, hp⟩ := hop
  have ht := h t
  rw [hp] at ht
  exact ht.1

omit [DecidableEq Tid] in
theorem Sound.rest {sys : Sys Reply Tid Loc Shared} {t : Tid} (h : M.Sound T sys)
    (hi : sys.idle t = true) : T.rest t (sys.loc t) := by
  have ht := h t
  unfold Sys.idle at hi
  split at hi
  · next he =>
    rw [he] at ht
    exact ht
  · cases hi

/-- A thread that goes on with a program meeting its contract. -/
theorem Sound.update {sys : Sys Reply Tid Loc Shared} {t : Tid} {thread : Thread Reply Loc}
    (h : M.Sound T sys)
    (ht : thread.prog.Meets (T.contract M t) (fun _ => T.rest t) thread.loc) (shared : Shared) :
    M.Sound T ⟨shared, Function.update sys.threads t thread⟩ := by
  intro t'
  by_cases heq : t' = t
  · subst heq
    simp only [Sys.loc, Function.update_self]
    exact ht
  · simpa [Sys.loc, heq] using h t'

theorem Sound.after {sys : Sys Reply Tid Loc Shared} {t : Tid} {op : Op}
    {next : Reply op → Program Reply Unit} {reply : Reply op} {shared : Shared}
    (h : M.Sound T sys) (hp : (sys.threads t).prog = .perform op next)
    (hg : T.gives t op (sys.loc t) reply) : M.Sound T (M.after sys t op next reply shared) := by
  have hm := h t
  rw [hp] at hm
  exact h.update (hm.2 reply hg) shared

theorem sound_of_reaches (hobeys : M.Obeys T) (hinit : M.Sound T init)
    {sys : Sys Reply Tid Loc Shared} (h : M.Reaches ok init sys) : M.Sound T sys := by
  induction h with
  | refl => exact hinit
  | @step sys sys' m _ _ hs ih =>
    cases m with
    | act t c =>
      obtain ⟨op, next, reply, shared, hp, he, rfl⟩ := M.act_eq_some.mp hs
      exact ih.after hp (hobeys.exec t _ op c _ reply shared (ih.pre ⟨next, hp⟩) he)
    | event e => exact hobeys.fire e _ _ ih hs

/-- The invariant rule, for a property that may speak of the run so far.  An
operation is met with its precondition, and its reply is one the contract
allows. -/
theorem Along.invariant (hobeys : M.Obeys T) (hsound : M.Sound T init)
    {P : List (Sys Reply Tid Loc Shared × Move Tid Choice Event) → Shared → (Tid → Loc) → Prop}
    (hinit : P [] init.shared init.loc)
    (hact : ∀ past sys t op c reply shared, M.Along ok init past sys →
      P past sys.shared sys.loc → ok sys (.act t c) → sys.about t op →
      T.pre t op (sys.loc t) → T.gives t op (sys.loc t) reply →
      M.exec t sys.loc op c sys.shared = some (reply, shared) →
      P ((sys, .act t c) :: past) shared
        (Function.update sys.loc t (M.note t op reply (sys.loc t))))
    (hevent : ∀ past sys e sys', M.Along ok init past sys → P past sys.shared sys.loc →
      ok sys (.event e) → M.fire e sys = some sys' →
      P ((sys, .event e) :: past) sys'.shared sys'.loc)
    {past : List (Sys Reply Tid Loc Shared × Move Tid Choice Event)}
    {sys : Sys Reply Tid Loc Shared} (h : M.Along ok init past sys) :
    P past sys.shared sys.loc := by
  induction h with
  | refl => exact hinit
  | @step past sys sys' m hr hok hs ih =>
    have hsnd := sound_of_reaches hobeys hsound hr.reaches
    cases m with
    | act t c =>
      obtain ⟨op, next, reply, shared, hp, he, rfl⟩ := M.act_eq_some.mp hs
      have hpre := hsnd.pre ⟨next, hp⟩
      have hg := hobeys.exec t _ op c _ reply shared hpre he
      rw [after_shared, after_loc]
      exact hact past sys t op c reply shared hr ih hok ⟨next, hp⟩ hpre hg he
    | event e => exact hevent past sys e sys' hr ih hok hs

/-- The invariant rule for a property of one state. -/
theorem Reaches.invariant (hobeys : M.Obeys T) (hsound : M.Sound T init)
    {P : Shared → (Tid → Loc) → Prop} (hinit : P init.shared init.loc)
    (hact : ∀ sys t op c reply shared, M.Reaches ok init sys → P sys.shared sys.loc →
      ok sys (.act t c) → sys.about t op →
      T.pre t op (sys.loc t) → T.gives t op (sys.loc t) reply →
      M.exec t sys.loc op c sys.shared = some (reply, shared) →
      P shared (Function.update sys.loc t (M.note t op reply (sys.loc t))))
    (hevent : ∀ sys e sys', M.Reaches ok init sys → P sys.shared sys.loc →
      ok sys (.event e) → M.fire e sys = some sys' → P sys'.shared sys'.loc)
    {sys : Sys Reply Tid Loc Shared} (h : M.Reaches ok init sys) : P sys.shared sys.loc := by
  obtain ⟨past, hpast⟩ := h.along
  refine hpast.invariant (P := fun _ => P) hobeys hsound hinit ?_ ?_
  · exact fun _ sys t op c reply shared hr => hact sys t op c reply shared hr.reaches
  · exact fun _ sys e sys' hr => hevent sys e sys' hr.reaches

end Machine

/-! ## Runs that one bad step breaks -/

section
variable {σ α : Type} {step : σ → α → σ} {inv prop : σ → Prop} {bad : σ → α → Prop}

/-- A property holds along a run if and only if no step of it is bad, when a step that is not bad
keeps the invariant and a bad one breaks the property. -/
theorem runs_iff (hprop : ∀ s, inv s → prop s) (hgood : ∀ s a, inv s → ¬ bad s a → inv (step s a))
    (hbad : ∀ s a, inv s → bad s a → ¬ prop (step s a)) {s : σ} (h : inv s) (actions : List α) :
    (∀ before, before <+: actions → prop (before.foldl step s)) ↔
      ∀ before a, before ++ [a] <+: actions → ¬ bad (before.foldl step s) a := by
  induction actions generalizing s with
  | nil =>
    refine iff_of_true ?_ ?_
    · intro before hbefore
      cases List.prefix_nil.mp hbefore
      exact hprop s h
    · intro before a hbefore
      cases before <;> cases List.prefix_nil.mp hbefore
  | cons first actions ih =>
    by_cases hfirst : bad s first
    · refine iff_of_false ?_ ?_
      · intro hall
        exact hbad s first h hfirst
          (hall [first] (List.cons_prefix_cons.mpr ⟨rfl, List.nil_prefix⟩))
      · intro hall
        exact hall [] first (List.cons_prefix_cons.mpr ⟨rfl, List.nil_prefix⟩) hfirst
    · have hrest := ih (hgood s first h hfirst)
      constructor
      · intro hall before a hbefore
        cases before with
        | nil =>
          obtain ⟨rfl, -⟩ := List.cons_prefix_cons.mp hbefore
          exact hfirst
        | cons other before =>
          obtain ⟨rfl, hafter⟩ := List.cons_prefix_cons.mp hbefore
          refine hrest.mp (fun later hlater => ?_) before a hafter
          exact hall (other :: later) (List.cons_prefix_cons.mpr ⟨rfl, hlater⟩)
      · intro hall before hbefore
        cases before with
        | nil => exact hprop s h
        | cons other before =>
          obtain ⟨rfl, hafter⟩ := List.cons_prefix_cons.mp hbefore
          refine hrest.mpr (fun later a hlater => ?_) before hafter
          exact hall (other :: later) a (List.cons_prefix_cons.mpr ⟨rfl, hlater⟩)

end

section
variable {Op : Type} {Reply : Op → Type} {Tid Loc Shared Choice Event : Type} [DecidableEq Tid]
  (M : Machine Reply Tid Loc Shared Choice Event)

/-- The system after moves that can all take place. -/
def Machine.steps (init : Sys Reply Tid Loc Shared) (moves : List (Move Tid Choice Event)) :
    Option (Sys Reply Tid Loc Shared) :=
  moves.foldl (fun sys m => sys.bind fun sys => M.step sys m) (some init)

variable {M} {init : Sys Reply Tid Loc Shared} {inv prop : Sys Reply Tid Loc Shared → Prop}
  {bad : Sys Reply Tid Loc Shared → Move Tid Choice Event → Prop}

/-- A property holds along the moves of a machine if and only if none of them is bad. -/
theorem Machine.steps_iff (hprop : ∀ sys, inv sys → prop sys)
    (hgood : ∀ sys m sys', inv sys → ¬ bad sys m → M.step sys m = some sys' → inv sys')
    (hbad : ∀ sys m, inv sys → bad sys m → ∃ sys', M.step sys m = some sys' ∧ ¬ prop sys')
    (hinit : inv init) (moves : List (Move Tid Choice Event)) :
    (∀ before, before <+: moves → ∀ sys, M.steps init before = some sys → prop sys) ↔
      ∀ before m, before ++ [m] <+: moves →
        ∀ sys, M.steps init before = some sys → ¬ bad sys m := by
  have hruns := @runs_iff (Option (Sys Reply Tid Loc Shared)) (Move Tid Choice Event)
    (fun sys m => sys.bind fun sys => M.step sys m) (fun s => ∀ sys, s = some sys → inv sys)
    (fun s => ∀ sys, s = some sys → prop sys) (fun s m => ∃ sys, s = some sys ∧ bad sys m)
    (fun s h sys hs => hprop sys (h sys hs)) ?_ ?_ (some init) ?_ moves
  · simp only [not_exists, not_and] at hruns
    exact hruns
  · intro s m h hnot sys' hstep
    obtain ⟨sys, rfl, hsys⟩ := Option.bind_eq_some_iff.mp hstep
    exact hgood sys m sys' (h sys rfl) (fun hb => hnot ⟨sys, rfl, hb⟩) hsys
  · rintro s m h ⟨sys, rfl, hb⟩ hall
    obtain ⟨sys', hsys, hnot⟩ := hbad sys m (h sys rfl) hb
    exact hnot (hall sys' hsys)
  · rintro sys ⟨rfl⟩
    exact hinit

end

end Concurrent
