import Mathlib.Logic.Function.Basic

/-!
# States, timestamps and exceptions

`definitions.h` and `exceptions.h`: the enumeration of the states with its priority order, the
`timespec` pair, and the exceptions with the part of the C++ class hierarchy that decides which
handler catches them.
-/

namespace Nds3

/-- The values of `state_t` that no enumerator names. The enumeration has the fixed underlying
type `int`, so casting an `std::int32_t` to it (`writeLocalState`) can give any of them. -/
structure RawState where
  v : Int32
  outside : v < 0 ∨ 9 < v
  deriving DecidableEq, Repr

/-- `state_t`, ordered by priority (lowest to higher). -/
inductive State where
  | unknown
  | off
  | switchingOff
  | initializing
  | on
  | stopping
  | starting
  | running
  | fault
  | MAX_STATE_NUM
  | raw (r : RawState)
  deriving DecidableEq, Repr

namespace State

/-- `(int)state`. -/
def toInt : State → Int
  | unknown => 0
  | off => 1
  | switchingOff => 2
  | initializing => 3
  | on => 4
  | stopping => 5
  | starting => 6
  | running => 7
  | fault => 8
  | MAX_STATE_NUM => 9
  | raw r => r.v.toInt

theorem toInt_off_pos : 0 < toInt off := by decide

theorem toInt_on_pos : 0 < toInt on := by decide

/-- `(state_t)value`. -/
def ofInt32 (v : Int32) : State :=
  if h : v < 0 ∨ 9 < v then raw ⟨v, h⟩
  else if v = 0 then unknown
  else if v = 1 then off
  else if v = 2 then switchingOff
  else if v = 3 then initializing
  else if v = 4 then on
  else if v = 5 then stopping
  else if v = 6 then starting
  else if v = 7 then running
  else if v = 8 then fault
  else MAX_STATE_NUM

theorem ofInt32_toInt (s : State) : ofInt32 (Int32.ofInt s.toInt) = s := by
  cases s with
  | raw r =>
    rw [toInt, Int32.ofInt_toInt, ofInt32, dif_pos r.outside]
  | _ => rfl

theorem toInt_injective : Function.Injective toInt :=
  Function.LeftInverse.injective (g := fun i => ofInt32 (Int32.ofInt i)) ofInt32_toInt

end State

/-- `timespec`. -/
structure Timespec where
  sec : Int
  nsec : Int
  deriving DecidableEq, Repr

/-- `logLevel_t`. -/
inductive LogLevel where
  | debug
  | info
  | warning
  | error
  | none
  deriving DecidableEq, Repr

/-- `(std::uint8_t)logLevel`. -/
def LogLevel.toNat : LogLevel → Nat
  | debug => 0
  | info => 1
  | warning => 2
  | error => 3
  | none => 4

theorem LogLevel.toNat_injective : Function.Injective toNat := by
  intro l l' h
  cases l <;> cases l' <;> first | rfl | cases h

/-- The exception classes the modelled code throws or tells apart. -/
inductive ExnClass where
  | runtimeError
  | ndsError
  | StateMachineRollBack
  | StateMachineNoSuchTransition
  | StateMachineTransitionDenied
  | DriverNotFound
  | DeviceNotAllocated
  | DeviceAlreadyCreated
  | PVAlreadyDeclared
  | MissingInputPV
  | MissingOutputPV
  | MissingDestinationPV
  | INIParserMissingSection
  | INIParserSyntaxError
  | logicError
  | badFunctionCall
  /-- Anything else user code may throw: `std::bad_alloc`, an `int`, ... -/
  | foreign
  deriving DecidableEq, Repr

/-- A thrown exception: its class and its `what()`. -/
structure Exn where
  cls : ExnClass
  what : String
  deriving DecidableEq, Repr

/-- Derived from `std::runtime_error`, as `NdsError` and so every exception of `exceptions.h`
except `NoPortDefinedError` is. -/
def ExnClass.isRuntimeError : ExnClass → Bool
  | logicError | badFunctionCall | foreign => false
  | _ => true

/-- Whether `catch(std::runtime_error&)` catches the exception. -/
def Exn.isRuntimeError (e : Exn) : Bool := e.cls.isRuntimeError

/-- Whether `catch(StateMachineRollBack&)` catches the exception. -/
def Exn.isRollBack (e : Exn) : Bool := e.cls == .StateMachineRollBack

/-- How a call ends when it does not return. -/
inductive Abort where
  | throws (e : Exn)
  /-- `std::terminate`: a bare `throw` with no active exception. -/
  | terminate
  deriving DecidableEq, Repr

end Nds3
