namespace MeteredScript

/-! # The meter

Work is paid for in units before it is done. The meter adds up what was asked for, also the request
that went over the limit, and its counter stops at the largest 64-bit number.
-/

/-- The largest amount of units that is counted. -/
def maxUnits : Nat := Nat.pow 2 64 - 1

/-- An amount of units as it is counted. -/
def saturate (units : Nat) : Nat := min units maxUnits

/-- A budget of `limit` units, of which `used` have been asked for. -/
structure Meter where
  limit : Nat
  used : Nat := 0
deriving DecidableEq, Repr, Inhabited

namespace Meter

def charge (meter : Meter) (units : Nat) : Meter :=
  { meter with used := saturate (meter.used + units) }

/-- Whether more was asked for than the budget holds. -/
def isExhausted (meter : Meter) : Bool := decide (meter.limit < meter.used)

@[simp] theorem charge_limit (meter : Meter) (units : Nat) : (meter.charge units).limit = meter.limit :=
  rfl

@[simp] theorem charge_used (meter : Meter) (units : Nat) :
    (meter.charge units).used = saturate (meter.used + units) := rfl

theorem isExhausted_charge (meter : Meter) (units : Nat) :
    (meter.charge units).isExhausted = true ↔ meter.limit < saturate (meter.used + units) := by
  unfold isExhausted
  rw [decide_eq_true_eq, charge_limit, charge_used]

end Meter

end MeteredScript
