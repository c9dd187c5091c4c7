import Mathlib.Data.Rat.Floor
import Trezarr.Config
import Trezarr.Subtitles.Model
import Trezarr.Translate.Timecode

/-! Cues packed into batches by scene gap, text budget and count. -/
namespace Trezarr
open Text Fallible

def gapMs (prev cur : SubLine) : Except PyError ℤ := do
  return ((← tcToMs cur.startTc) : ℤ) - (← tcToMs prev.endTc)

/-- The first cue has no gap before it. -/
def gapBefore : Option SubLine → SubLine → Except PyError ℤ
  | none, _ => .ok 0
  | some prev, cue => gapMs prev cue

structure Batch where
  cues : List SubLine
  contextBefore : List SubLine
  contextAfter : List SubLine
  dominantPair : Option (ℕ × ℕ) := none
  deriving DecidableEq, Repr

def truncate (q : ℚ) : ℤ := if 0 ≤ q then ⌊q⌋ else -⌊-q⌋

def computeBudgetChars (settings : TrezarrSettings) : Except PyError ℤ :=
  if 1 + settings.translateOutputExpansion = 0 then .error .zeroDivisionError
  else .ok (truncate (settings.llmContextWindow * (1 - settings.translateOverheadFraction) /
    (1 + settings.translateOutputExpansion) * settings.translateCharsPerToken))

def makeBatch (cues allLines : List SubLine) (nextIdx : ℕ) (k : ℤ) : Batch :=
  let firstIdx : ℤ := nextIdx - cues.length
  { cues := cues
    contextBefore := slice allLines (max 0 (firstIdx - k)) firstIdx
    contextAfter := slice allLines nextIdx (min allLines.length (nextIdx + k)) }

structure Limits where
  allLines : List SubLine
  budgetChars : ℤ
  maxCues : ℤ
  sceneGapMs : ℤ
  contextLinesK : ℤ

structure Packing where
  batches : List Batch := []
  current : List SubLine := []
  currentChars : ℕ := 0

namespace Packing

def close (st : Packing) (lim : Limits) (nextIdx : ℕ) : Packing :=
  { batches := st.batches ++ [makeBatch st.current lim.allLines nextIdx lim.contextLinesK] }

def add (st : Packing) (cue : SubLine) : Packing :=
  { st with
    current := st.current ++ [cue]
    currentChars := st.currentChars + cue.text.length }

def wouldOverflow (st : Packing) (lim : Limits) (cue : SubLine) : Bool :=
  lim.budgetChars < st.currentChars + cue.text.length || lim.maxCues ≤ st.current.length

end Packing

/-- Raw cues are passed over, though a gap is still measured from the cue just before. -/
def packFrom (lim : Limits) : Packing → Option SubLine → ℕ → List SubLine → Except PyError Packing
  | st, _, _, [] => .ok st
  | st, prev, i, cue :: rest =>
    if cue.raw.isSome then packFrom lim st (some cue) (i + 1) rest
    else do
      let gap ← gapBefore prev cue
      let full := st.current ≠ [] && (lim.sceneGapMs ≤ gap || st.wouldOverflow lim cue)
      packFrom lim ((if full then st.close lim i else st).add cue) (some cue) (i + 1) rest

def batchSubdoc (doc : SubDoc) (settings : TrezarrSettings) (contextLinesK maxCuesPerBatch : ℤ) :
    Except PyError (List Batch) := do
  let budgetChars ← computeBudgetChars settings
  let lim : Limits :=
    { allLines := doc.lines
      budgetChars := budgetChars
      maxCues := maxCuesPerBatch
      sceneGapMs := settings.translateSceneGapMs
      contextLinesK := contextLinesK }
  let st ← packFrom lim {} none 0 doc.lines
  return (if st.current ≠ [] then st.close lim doc.lines.length else st).batches

end Trezarr
