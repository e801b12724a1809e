import TaskMonitor.Number.Fixed
import TaskMonitor.Number.Reading
import TaskMonitor.Text.Blank

/-! Lengths of time in whole nanoseconds, and how one is read from a number of seconds. -/

set_option autoImplicit false

namespace TaskMonitor

structure Duration where
  nanoseconds : Nat
  deriving DecidableEq, Repr

namespace Duration

def seconds (duration : Duration) : Nat := duration.nanoseconds / 1000000000

def subseconds (duration : Duration) : Nat := duration.nanoseconds % 1000000000

def ofMilliseconds (milliseconds : UInt64) : Duration := ⟨milliseconds.toNat * 1000000⟩

/-- Why a text is no interval. Seconds that do not fit 64 bits have no duration at all. -/
inductive IntervalError where
  | notANumber (text : String)
  | notPositive (text : String)
  | tooLong
  deriving DecidableEq, Repr

/-- An interval that is too long is not answered in words. -/
def IntervalError.message? : IntervalError → Option String
  | .notANumber text => some s!"expected a number of seconds, got '{text}'"
  | .notPositive text => some s!"interval must be a positive number of seconds, got '{text}'"
  | .tooLong => none

/-- The nearest number of nanoseconds to a finite positive number of seconds, of two the even. -/
def ofBinary64 (text : String) (x : Number.Binary64) : Except IntervalError Duration :=
  match x.value with
  | .finite false (significand + 1) exponent =>
    if UInt64.size * Nat.pow 2 (-exponent).toNat ≤ (significand + 1) * Nat.pow 2 exponent.toNat then
      .error .tooLong
    else .ok ⟨Number.scaled 9 (significand + 1) exponent⟩
  | _ => .error (.notPositive text)

def ofInterval (text : String) : Except IntervalError Duration :=
  match Number.readBinary64? (Text.trim text.toList) with
  | none => .error (.notANumber text)
  | some x => ofBinary64 text x

end Duration

end TaskMonitor
