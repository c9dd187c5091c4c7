import Trezarr.Lib.Dict
import Trezarr.Lib.Fallible
import Trezarr.Lib.Regex
import Trezarr.Translate.Errors

/-! Numbered replies read back into one text for each line that was sent. -/
namespace Trezarr
open Text Regex Regex.Pattern Fallible

def numberedLineRe : Pattern :=
  seqs [char '[', group 1 (plus digit), char ']', opt (oneOf ".)"), star space,
    group 2 (star dot)]

def brRe : Pattern := seqs [lit "<<", star space, lit "BR", star space, lit ">>"]

def leakedHintRe : Pattern :=
  seqs [start, star space, char '(', star space, litI "speaker", plus space, litI "says",
    star space, char ':', star (noneOf ")"), char ')', star space]

/-- The form-of-address label a translated hint carries, after text without the envelope's
brackets. -/
def vnLabelRe (interior : Pattern) : Pattern :=
  seqs [star interior, litI "xưng", plus space, litI "hô", star space, oneOf ":："]

def leakedVnHintRe : Pattern :=
  seqs [start, star space,
    alt (seqs [char '(', star space, vnLabelRe (noneOf "()"), star (noneOf ")"), char ')'])
      (seqs [char '[', star space, vnLabelRe (noneOf "[]"), star (noneOf "]"), char ']']),
    star space]

def correctionTagRe : Pattern :=
  seqs [char '[', star space, litI "CORRECTION", plus space, litI "REQUIRED", star space, char ']']

def leakedDirectiveRe : Pattern :=
  seqs [start, star space, correctionTagRe, star (noneOf "\n"), opt (char '\n')]

structure ParseState where
  parsed : Dict ℕ Str := Dict.empty
  current : Option ℕ := none

/-- A line without a marker continues the cue before it, if that cue had several lines. -/
def continueLine (st : ParseState) (stripped : Str) (multiline : Option (List ℕ)) : ParseState :=
  match st.current with
  | none => st
  | some current =>
    if stripped ≠ [] ∧ multiline.all (current ∈ ·) then
      let text := (st.parsed.get? current).getD []
      { st with
        parsed := st.parsed.set current
          (if text = [] then stripped else text ++ "\n" ++ stripped) }
    else st

def readLine (multiline : Option (List ℕ)) (st : ParseState) (rawLine : Str) :
    Except PyError ParseState :=
  let stripped := strip rawLine
  match matchStart numberedLineRe stripped with
  | some m => do
    let number ← pyInt (m.group 1)
    if number ∈ st.parsed.keys then .error (.batchValidation (.duplicateLine number))
    else return { parsed := st.parsed.set number (strip (m.group 2)), current := some number }
  | none => .ok (continueLine st stripped multiline)

/-- A marker next to a real line break counts with it as one break. -/
def restoreBreaks (text : Str) : Str :=
  let newline := fun _ : Found => "\n".toList
  let text := sub (seqs [brRe, star (oneOf " \t"), char '\n']) newline text
  let text := sub (seqs [char '\n', star (oneOf " \t"), brRe]) newline text
  sub brRe newline text

def stripEchoes (text : Str) : Str :=
  let nothing := fun _ : Found => []
  sub leakedDirectiveRe nothing (sub leakedVnHintRe nothing (sub leakedHintRe nothing text))

def finishLine (parsed : Dict ℕ Str) (expectedCount number : ℕ) : Except PyError Str :=
  match parsed.get? number with
  | none => .error (.batchValidation (.missingLine number expectedCount))
  | some text =>
    let text := stripEchoes (restoreBreaks text)
    if strip text = [] then .error (.batchValidation (.emptyLine number)) else .ok text

def parseNumberedResponse (response : Str) (expectedCount : ℕ) (multiline : Option (List ℕ)) :
    Except PyError (List Str) := do
  let st ← (splitlines response).foldlM (readLine multiline) {}
  let extra := st.parsed.keys.filter fun n => n < 1 ∨ expectedCount < n
  if extra ≠ [] then .error (.batchValidation (.unexpectedLines extra expectedCount))
  else (List.range' 1 expectedCount).mapM (finishLine st.parsed expectedCount)

end Trezarr
