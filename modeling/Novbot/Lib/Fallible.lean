import Mathlib.Init

/-!
# Programs that fail

A program over a state that may fail, and keeps what it did to the state when it does.  A check
leaves the state alone, or it fails and does to the state no more than a refusal.
-/

namespace Fallible

variable {ε ε' σ τ α β : Type}

/-- The result of a program and the state after it. -/
def exec (x : ExceptT ε (StateM σ) α) (state : σ) : Except ε α × σ := x.run.run state

theorem exec_pure (a : α) (state : σ) :
    exec (pure a : ExceptT ε (StateM σ) α) state = (.ok a, state) := rfl

theorem exec_throw (error : ε) (state : σ) :
    exec (throw error : ExceptT ε (StateM σ) α) state = (.error error, state) := rfl

theorem exec_except (x : Except ε α) (state : σ) :
    exec (liftM x : ExceptT ε (StateM σ) α) state = (x, state) := by
  cases x <;> rfl

theorem exec_lift (x : StateM σ α) (state : σ) :
    exec (liftM x : ExceptT ε (StateM σ) α) state = (.ok (x.run state).1, (x.run state).2) := rfl

theorem exec_bind (x : ExceptT ε (StateM σ) α) (f : α → ExceptT ε (StateM σ) β) (state : σ) :
    exec (x >>= f) state =
      match exec x state with
      | (.ok a, after) => exec (f a) after
      | (.error error, after) => (.error error, after) := by
  rw [exec, ExceptT.run_bind, StateT.run_bind, exec]
  show (match (x.run.run state : Except ε α × σ) with | (result, after) => _) = _
  cases (x.run.run state : Except ε α × σ) with
  | mk result after => cases result <;> rfl

/-- A check, which may refuse. -/
def Checks (refused : σ → σ → Prop) (x : ExceptT ε (StateM σ) α) : Prop :=
  ∀ state, (∃ a, exec x state = (.ok a, state)) ∨
    ∃ error after, exec x state = (.error error, after) ∧ refused state after

section

variable {refused : σ → σ → Prop} {x : ExceptT ε (StateM σ) α} {f : α → ExceptT ε (StateM σ) β}

theorem Checks.bind (hx : Checks refused x) (hf : ∀ a, Checks refused (f a)) :
    Checks refused (x >>= f) := by
  intro state
  rw [exec_bind]
  rcases hx state with ⟨a, hok⟩ | ⟨error, after, herror, hrefused⟩
  · rw [hok]
    exact hf a state
  · rw [herror]
    exact .inr ⟨error, after, rfl, hrefused⟩

theorem Checks.pure (a : α) : Checks refused (pure a : ExceptT ε (StateM σ) α) :=
  fun state => .inl ⟨a, exec_pure a state⟩

/-- What fails without touching the state. -/
theorem Checks.except (hrefl : ∀ state, refused state state) (x : Except ε α) :
    Checks refused (liftM x : ExceptT ε (StateM σ) α) := by
  intro state
  rw [exec_except]
  cases x with
  | error error => exact .inr ⟨error, state, rfl, hrefl state⟩
  | ok a => exact .inl ⟨a, rfl⟩

theorem Checks.throw (hrefl : ∀ state, refused state state) (error : ε) :
    Checks refused (throw error : ExceptT ε (StateM σ) α) :=
  .except hrefl (.error error)

end

/-! ## Parts of a state -/

/-- A program on a part of the state. -/
def onPart (get : τ → σ) (set : σ → τ → τ) (error : ε → ε') (x : ExceptT ε (StateM σ) α) :
    ExceptT ε' (StateM τ) α :=
  ExceptT.mk fun state =>
    let (result, part) := exec x (get state)
    (result.mapError error, set part state)

theorem exec_onPart (get : τ → σ) (set : σ → τ → τ) (error : ε → ε') (x : ExceptT ε (StateM σ) α)
    (state : τ) : exec (onPart get set error x) state =
      ((exec x (get state)).1.mapError error, set (exec x (get state)).2 state) := rfl

/-- A check of a part. -/
theorem Checks.onPart {get : τ → σ} {set : σ → τ → τ} {error : ε → ε'}
    {x : ExceptT ε (StateM σ) α} {refused : σ → σ → Prop} {refused' : τ → τ → Prop}
    (hget : ∀ state, set (get state) state = state)
    (hrefused : ∀ state part, refused (get state) part → refused' state (set part state))
    (hx : Checks refused x) : Checks refused' (onPart get set error x) := by
  intro state
  rw [exec_onPart]
  rcases hx (get state) with ⟨a, hok⟩ | ⟨fault, after, herror, hafter⟩
  · rw [hok]
    refine .inl ⟨a, ?_⟩
    rw [hget]
    rfl
  · rw [herror]
    exact .inr ⟨error fault, _, rfl, hrefused state after hafter⟩

end Fallible
