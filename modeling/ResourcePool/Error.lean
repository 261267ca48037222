/-!
# The errors of the resource pool

`Code` are the codes of `error::detail::category`, which a failed `get` reports.
`LogicError` are the exceptions which misuse raises.
-/

namespace ResourcePool.Error

/-- `error::code`. A default-constructed `error_code` has the value of `ok`. -/
inductive Code where
  | ok
  | getResourceTimeout
  | requestQueueOverflow
  | disabled
  deriving DecidableEq

namespace Code

def value : Code → Nat
  | ok => 0
  | getResourceTimeout => 1
  | requestQueueOverflow => 2
  | disabled => 3

/-- The conversion of an error code to `bool`. -/
def isSet (code : Code) : Bool := code.value != 0

@[simp]
theorem isSet_ok : ok.isSet = false := rfl

@[simp]
theorem isSet_getResourceTimeout : getResourceTimeout.isSet = true := rfl

@[simp]
theorem isSet_requestQueueOverflow : requestQueueOverflow.isSet = true := rfl

@[simp]
theorem isSet_disabled : disabled.isSet = true := rfl

theorem isSet_eq_false_iff {code : Code} : code.isSet = false ↔ code = ok := by
  cases code <;> simp

end Code

/-- The exceptions derived from `std::logic_error`. -/
inductive LogicError where
  | emptyHandle
  | unusableHandle
  | zeroPoolCapacity
  deriving DecidableEq

end ResourcePool.Error

/-- `assert_capacity`, the check which both pool implementations make of their capacity. -/
def ResourcePool.assertCapacity (value : Nat) : Except Error.LogicError Nat :=
  if value = 0 then .error .zeroPoolCapacity else .ok value
