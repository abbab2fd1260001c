import Novbot.Config.Spec
import Novbot.Lib.Lines

/-!
# Probes

What the probes of `novbot-core/src/probe.rs` share: an outcome or an error, and the
parameters of a spec with their defaults.
-/

namespace Novbot.Probe

inductive ProbeError where
  | params (text : String)
  | failed (text : String)
  | io (text : String)
  deriving DecidableEq, Repr

structure ProbeOutcome where
  status : String
  payload : Json

/-- What a probe asks of the files of its node. -/
structure Files where
  /-- `Path::exists`. -/
  present : String → Bool
  /-- `fs::read_to_string`. -/
  readToString : String → Except String String

def asU64 : Json → Option Nat
  | .int n => if 0 ≤ n ∧ n < 2 ^ 64 then some n.toNat else none
  | _ => none

theorem asU64_nat (n : Nat) : asU64 (.int n) = if n < 2 ^ 64 then some n else none := by
  have hbounds : (0 ≤ (n : Int) ∧ (n : Int) < 2 ^ 64) ↔ n < 2 ^ 64 := by omega
  simp only [asU64, Int.toNat_natCast, hbounds]

def asBool : Json → Option Bool
  | .bool b => some b
  | _ => none

variable (spec : Config.Spec)

def textParam (name default : String) : String := ((spec.params.get name).bind Json.asStr).getD default

def natParam (name : String) (default : Nat) : Nat := ((spec.params.get name).bind asU64).getD default

def boolParam (name : String) (default : Bool) : Bool :=
  ((spec.params.get name).bind asBool).getD default

def passStatus (passed : Bool) : String := if passed then "ok" else "fail"

theorem passStatus_eq_ok {passed : Bool} : passStatus passed = "ok" ↔ passed = true := by
  cases passed <;> decide

def strings (texts : List String) : Json := .arr (texts.map .str)

theorem strings_inj {texts texts' : List String} : strings texts = strings texts' ↔ texts = texts' := by
  refine ⟨fun h => ?_, fun h => h ▸ rfl⟩
  exact List.map_injective_iff.mpr (fun _ _ => Json.str.inj) (Json.arr.inj h)

end Novbot.Probe
