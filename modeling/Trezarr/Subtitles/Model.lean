import Trezarr.Lib.Text

/-! Subtitle cues and documents, whatever the format. -/
namespace Trezarr
open Text

/-- A cue with `raw` set is written back as it was read. -/
structure SubLine where
  index : Str
  startTc : Str
  endTc : Str
  text : Str
  raw : Option Str := none
  deriving DecidableEq, Repr

inductive AssSegment
  | opaqueSegment (raw : Str)
  | dialogueSlot (linePrefix lineEnding : Str) (subIndex : ℕ)
  deriving DecidableEq, Repr

structure AssDoc where
  segments : List AssSegment
  encoding : Str
  lineEnding : Str
  deriving DecidableEq, Repr

inductive VttBlock
  | opaqueBlock (raw trailingSep : Str)
  | cueBlock (identifierLine : Option Str) (timingLine lineEnding : Str) (subIndex : ℕ)
      (trailingSep : Str)
  deriving DecidableEq, Repr

structure VttDoc where
  blocks : List VttBlock
  encoding : Str
  lineEnding : Str
  deriving DecidableEq, Repr

inductive Envelope
  | none
  | ass (doc : AssDoc)
  | vtt (doc : VttDoc)
  deriving DecidableEq, Repr

structure SubDoc where
  lines : List SubLine
  encoding : Str
  lineEnding : Str
  separators : List Str
  leading : Str := []
  trailer : Str := []
  envelope : Envelope := .none
  deriving DecidableEq, Repr

/-- The text a cue is written with. -/
def SubLine.shown (line : SubLine) : Str := line.raw.getD line.text

end Trezarr
