import Trezarr.Lib.Fallible
import Trezarr.Lib.Regex
import Trezarr.Translate.Errors

/-! Timecodes in milliseconds; what matches no pattern counts as zero. -/
namespace Trezarr
open Text Regex Regex.Pattern

def twoDigits : Pattern := seq digit digit

def threeDigits : Pattern := seqs [digit, digit, digit]

def tcParseRe : Pattern :=
  seqs [group 1 twoDigits, char ':', group 2 twoDigits, char ':', group 3 twoDigits, oneOf ",.",
    group 4 (plus digit)]

def assTcRe : Pattern :=
  seqs [group 1 (plus digit), char ':', group 2 twoDigits, char ':', group 3 twoDigits, char '.',
    group 4 twoDigits, finish]

def vttHoursTcRe : Pattern :=
  seqs [group 1 (plus digit), char ':', group 2 twoDigits, char ':', group 3 twoDigits, char '.',
    group 4 threeDigits, finish]

def vttHourlessTcRe : Pattern :=
  seqs [group 1 (plus digit), char ':', group 2 twoDigits, char '.', group 3 threeDigits, finish]

def ljustZero (n : ℕ) (s : Str) : Str := s ++ List.replicate (n - s.length) '0'

def tcToMs (tc : Str) : Except PyError ℕ :=
  let tc := strip tc
  match matchStart tcParseRe tc with
  | some m => do
    let ms ← pyInt ((ljustZero 3 (m.group 4)).take 3)
    return (← pyInt (m.group 1)) * 3600000 + (← pyInt (m.group 2)) * 60000 +
      (← pyInt (m.group 3)) * 1000 + ms
  | none =>
    match matchStart assTcRe tc with
    | some m => do
      return (← pyInt (m.group 1)) * 3600000 + (← pyInt (m.group 2)) * 60000 +
        (← pyInt (m.group 3)) * 1000 + (← pyInt (m.group 4)) * 10
    | none =>
      match matchStart vttHoursTcRe tc with
      | some m => do
        return (← pyInt (m.group 1)) * 3600000 + (← pyInt (m.group 2)) * 60000 +
          (← pyInt (m.group 3)) * 1000 + (← pyInt (m.group 4))
      | none =>
        match matchStart vttHourlessTcRe tc with
        | some m => do
          return (← pyInt (m.group 1)) * 60000 + (← pyInt (m.group 2)) * 1000 +
            (← pyInt (m.group 3))
        | none => .ok 0

end Trezarr
