import Mathlib.Logic.Basic

/-!
# Programs over a signature of operations

A program is a result, or an operation with what to do for each reply.  The
operations of a signature are the elements of `Op`, and `Reply op` is the type
of the reply to `op`.  Nothing here says what an operation does.

`Meets` is the weakest precondition of a program under a contract.  A contract
gives, for a thread whose history amounts to `loc`, the operations the thread
may perform and what it may assume of a reply.  The history after a reply is
`note op reply loc`.  `meets_bind` splits the condition along the monad, so that
a procedure is verified once and its callers use the result.
-/

namespace Concurrent

variable {Op : Type} {Reply : Op → Type} {α β γ : Type}

/-- A result, or an operation and the rest of the program for each reply. -/
inductive Program (Reply : Op → Type) (α : Type) : Type where
  | done (result : α)
  | perform (op : Op) (next : Reply op → Program Reply α)

namespace Program

def bind : Program Reply α → (α → Program Reply β) → Program Reply β
  | .done a, f => f a
  | .perform op next, f => .perform op fun reply => (next reply).bind f

instance : Monad (Program Reply) where
  pure := .done
  bind := bind

/-- One operation, which returns its reply. -/
def call (op : Op) : Program Reply (Reply op) := .perform op .done

@[simp] theorem pure_eq (a : α) : (pure a : Program Reply α) = .done a := rfl

@[simp] theorem done_bind (a : α) (f : α → Program Reply β) : (Program.done a >>= f) = f a := rfl

@[simp] theorem perform_bind (op : Op) (next : Reply op → Program Reply α)
    (f : α → Program Reply β) :
    (Program.perform op next >>= f) = .perform op fun reply => next reply >>= f := rfl

@[simp] theorem call_bind (op : Op) (f : Reply op → Program Reply β) :
    (call op >>= f) = .perform op f := rfl

/-! ### Runs without other threads -/

variable {S : Type}

/-- Runs a program against a state that nothing else changes. -/
def alone (exec : (op : Op) → S → Option (Reply op × S)) : Program Reply α → S → Option (α × S)
  | .done a, s => some (a, s)
  | .perform op next, s => (exec op s).bind fun (reply, s') => (next reply).alone exec s'

variable {exec : (op : Op) → S → Option (Reply op × S)}

@[simp] theorem alone_done (a : α) (s : S) :
    (Program.done a : Program Reply α).alone exec s = some (a, s) := rfl

theorem alone_perform {op : Op} {next : Reply op → Program Reply α} {s s' : S} {reply : Reply op}
    (h : exec op s = some (reply, s')) :
    (Program.perform op next).alone exec s = (next reply).alone exec s' := by
  rw [alone, h]
  rfl

theorem alone_bind {p : Program Reply α} {f : α → Program Reply β} {s s' : S} {a : α}
    (h : p.alone exec s = some (a, s')) : (p >>= f).alone exec s = (f a).alone exec s' := by
  induction p generalizing s with
  | done result =>
    cases h
    rfl
  | perform op next ih =>
    rw [alone] at h
    obtain ⟨⟨reply, mid⟩, hexec, hnext⟩ := Option.bind_eq_some_iff.mp h
    rw [perform_bind, alone_perform hexec]
    exact ih reply hnext

end Program

/-! ## Contracts -/

/-- What the threads of a system may do and may assume. -/
structure Contract (Reply : Op → Type) (Loc : Type) where
  /-- A thread with this history may perform the operation. -/
  pre : Op → Loc → Prop
  /-- The reply is one the operation can give to a thread with this history. -/
  gives : (op : Op) → Loc → Reply op → Prop
  /-- The history after the reply. -/
  note : (op : Op) → Reply op → Loc → Loc

variable {Loc : Type} (C : Contract Reply Loc)

namespace Program

/-- Every operation of the program is allowed, and `post` holds at its end. -/
def Meets : Program Reply α → (α → Loc → Prop) → Loc → Prop
  | .done a, post, loc => post a loc
  | .perform op next, post, loc =>
    C.pre op loc ∧ ∀ reply, C.gives op loc reply → (next reply).Meets post (C.note op reply loc)

@[simp] theorem meets_done (a : α) (post : α → Loc → Prop) (loc : Loc) :
    (Program.done a : Program Reply α).Meets C post loc ↔ post a loc := Iff.rfl

theorem meets_perform (op : Op) (next : Reply op → Program Reply α) (post : α → Loc → Prop)
    (loc : Loc) :
    (Program.perform op next).Meets C post loc ↔
      C.pre op loc ∧
        ∀ reply, C.gives op loc reply → (next reply).Meets C post (C.note op reply loc) :=
  Iff.rfl

theorem meets_call (op : Op) (post : Reply op → Loc → Prop) (loc : Loc) :
    (call op).Meets C post loc ↔
      C.pre op loc ∧ ∀ reply, C.gives op loc reply → post reply (C.note op reply loc) :=
  Iff.rfl

theorem meets_bind (p : Program Reply α) (f : α → Program Reply β) (post : β → Loc → Prop)
    (loc : Loc) :
    (p >>= f).Meets C post loc ↔ p.Meets C (fun a loc => (f a).Meets C post loc) loc := by
  induction p generalizing loc with
  | done a => rfl
  | perform op next ih =>
    simp only [perform_bind, meets_perform, ih]

variable {C}

theorem Meets.mono {p : Program Reply α} {post post' : α → Loc → Prop} {loc : Loc}
    (h : p.Meets C post loc) (himp : ∀ a loc, post a loc → post' a loc) :
    p.Meets C post' loc := by
  induction p generalizing loc with
  | done a => exact himp a loc h
  | perform op next ih => exact ⟨h.1, fun reply hr => ih reply (h.2 reply hr)⟩

/-- A procedure that meets a condition may be followed by what needs it. -/
theorem Meets.bind {p : Program Reply α} {f : α → Program Reply β} {mid : α → Loc → Prop}
    {post : β → Loc → Prop} {loc : Loc} (h : p.Meets C mid loc)
    (hf : ∀ a loc, mid a loc → (f a).Meets C post loc) : (p >>= f).Meets C post loc :=
  (meets_bind C p f post loc).mpr (h.mono hf)

end Program

end Concurrent
