import Trezarr.Bible.Models
import Trezarr.Output.Files
import Trezarr.Lib.Rows

/-! What the pipeline raises. -/
namespace Trezarr
open Text

/-- Why a reply is rejected. -/
inductive BatchDefect
  | duplicateLine (number : ℕ)
  | unexpectedLines (extra : List ℕ) (expected : ℕ)
  | missingLine (number expected : ℕ)
  | emptyLine (number : ℕ)
  | sentinelIntegrity (cue : ℕ) (restored : Str)
  | exhausted
  deriving DecidableEq, Repr

inductive PyError
  | batchValidation (defect : BatchDefect)
  | apiError (text : Str)
  | runtimeError (text : Str)
  | valueError
  | zeroDivisionError
  | indexError
  | stopIteration
  | validationError
  | os (err : OSError)
  | ledger (err : Rows.QueryError)
  | store (err : StoreError)
  deriving DecidableEq, Repr

/-- The most digits an integer is read with. -/
def maxStrDigits : ℕ := 4300

def pyInt (digits : Str) : Except PyError ℕ :=
  if maxStrDigits < digits.length then .error .valueError
  else .ok (digits.foldl (fun n c => 10 * n + digitValue c) 0)

/-- A slice with bounds that count from the end when negative. -/
def slice {α : Type} (xs : List α) (start stop : ℤ) : List α :=
  let clamp (i : ℤ) : ℕ := (if i < 0 then i + xs.length else i).toNat
  (xs.take (clamp stop)).drop (clamp start)

end Trezarr
