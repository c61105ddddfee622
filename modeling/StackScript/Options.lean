import StackScript.Machine.Basic
import StackScript.Text.Blank

/-!
# Options from the environment

Two environment variables set a machine's options: `FERRULE_TRACE` turns tracing on unless it is
missing, empty, `0` or `false`, and `FERRULE_MAX_INSTRUCTIONS` sets the instruction budget when
its text, trimmed of blanks, is an unsigned 64-bit number (digits, with an optional `+` before
them); any other text leaves the run without a budget.
-/

namespace StackScript

/-- The environment variable that turns tracing on. -/
def traceVariable : String := "FERRULE_TRACE"

/-- The environment variable that sets the instruction budget. -/
def budgetVariable : String := "FERRULE_MAX_INSTRUCTIONS"

/-- The value of an unsigned 64-bit number written in decimal, with an optional `+`. -/
def readWord? (s : String) : Option Nat :=
  let ds := match s.toList with
    | '+' :: rest => rest
    | cs => cs
  if !ds.isEmpty && ds.all Char.isDigit then
    let n := ds.foldl (fun acc c => 10 * acc + (c.toNat - '0'.toNat)) 0
    if n < Nat.pow 2 64 then some n else none
  else none

/-- The options that an environment sets, read through `lookup`. -/
def Options.ofEnv (lookup : String → Option String) : Options :=
  { trace := match lookup traceVariable with
      | some v => !(v == "false" || v == "0" || v.isEmpty)
      | none => false
    maxInstructions := (lookup budgetVariable).bind fun v => readWord? (Text.trimBlank v) }

end StackScript
