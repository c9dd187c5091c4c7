import Trezarr.Subtitles.Srt

/-! The Advanced SubStation reader and writer. -/
namespace Trezarr
open Text Regex Regex.Pattern

/-- An override tag of one letter and a number, in braces. -/
def overrideRe (letter number : Pattern) : Pattern :=
  seqs [char '\x7b', char '\\', letter, number, char '\x7d']

def karaokeRe : Pattern :=
  alts [overrideRe (charI 'k') (seq (opt (alts [charI 'f', charI 'o', charI 'i'])) (plus digit)),
    overrideRe (charI 'k') (plus digit),
    overrideRe (charI 'k') (seq (charI 't') (plus digit))]

def drawingRe : Pattern := overrideRe (char 'p') (seq (range '1' '9') (star digit))

def sectionHeaderRe : Pattern := seq lineStart (char '[')

/-- What is before the first header, and the sections. -/
def sections : Found → List Found → List Str
  | f, [] => [f.text ++ f.rest]
  | f, g :: fs => (f.text ++ g.skipped) :: sections g fs

/-- The text before the first occurrence, all of it when there is none. -/
def beforeFirst (part : Str) : Str → Str
  | [] => []
  | c :: s => if part <+: c :: s then [] else c :: beforeFirst part s

def isEventsSection (le sectionText : Str) : Bool :=
  strip (beforeFirst (if contains sectionText le then le else "\n") sectionText) =
    ("[Events]" : Str)

/-- A read that fails by indexing a list past its end. -/
inductive IndexError
  | indexError
  deriving DecidableEq, Repr

structure EventsState where
  textCommaIdx : ℕ := 9
  segments : List AssSegment := []
  lines : List SubLine := []

namespace EventsState

def addOpaque (st : EventsState) (raw : Str) : EventsState :=
  { st with segments := st.segments ++ [.opaqueSegment raw] }

def addSlot (st : EventsState) (linePrefix lineEnding : Str) (line : SubLine) : EventsState :=
  { st with
    segments := st.segments ++ [.dialogueSlot linePrefix lineEnding st.lines.length]
    lines := st.lines ++ [line] }

end EventsState

def parseDialogueLine (st : EventsState) (content lineEnding : Str) :
    Except IndexError EventsState :=
  let parts := splitMax ',' st.textCommaIdx content
  if parts.length < st.textCommaIdx + 1 then
    .ok (st.addSlot [] lineEnding ⟨[], [], [], content, some content⟩)
  else
    match parts[1]?, parts[2]?, parts[st.textCommaIdx]? with
    | some startTc, some endTc, some text =>
      let raw := if found karaokeRe text || found drawingRe text then some text else none
      .ok (st.addSlot (join "," (parts.take st.textCommaIdx) ++ ",") lineEnding
        ⟨[], strip startTc, strip endTc, text, raw⟩)
    | _, _, _ => .error .indexError

/-- The text column is the last one; a format line with a single column is not counted. -/
def formatCommaIdx (st : EventsState) (content : Str) : ℕ :=
  let commas := (strip (content.drop "Format:".length)).count ','
  if 1 ≤ commas then commas else st.textCommaIdx

/-- Only carriage returns and line feeds end a line here; other breaks belong to its content. -/
def lineOfSpan : Str × Str → Str × Str
  | (line, ending) =>
    if ending = ("\r\n" : Str) ∨ ending = ("\n" : Str) ∨ ending = ("\r" : Str) then (line, ending)
    else (line ++ ending, [])

def parseEventLine (st : EventsState) (span : Str × Str) : Except IndexError EventsState :=
  let (content, lineEnding) := lineOfSpan span
  if "Format:".toList <+: content then
    .ok ({ st with textCommaIdx := formatCommaIdx st content }.addOpaque (content ++ lineEnding))
  else if "Comment:".toList <+: content then .ok (st.addOpaque (content ++ lineEnding))
  else if "Dialogue:".toList <+: content then parseDialogueLine st content lineEnding
  else .ok (st.addOpaque (content ++ lineEnding))

def parseEventsSection (st : EventsState) (sectionText : Str) : Except IndexError EventsState :=
  (lineSpans sectionText).foldlM parseEventLine { st with textCommaIdx := 9 }

/-- Of several events sections the first is parsed. -/
def parseSections (le : Str) : EventsState → List Str → Except IndexError EventsState
  | st, [] => .ok st
  | st, text :: texts =>
    if isEventsSection le text then do
      let st ← parseEventsSection st text
      return texts.foldl EventsState.addOpaque st
    else parseSections le (st.addOpaque text) texts

def readAss (encoding text : Str) : Except IndexError SubDoc := do
  let le := detectLineEnding text
  let st ← match findIter sectionHeaderRe text with
    | [] => pure (EventsState.addOpaque {} text)
    | f :: fs =>
      parseSections le (if f.skipped = [] then {} else EventsState.addOpaque {} f.skipped)
        (sections f fs)
  return {
    lines := st.lines
    encoding := encoding
    lineEnding := le
    separators := []
    envelope := .ass ⟨st.segments, encoding, le⟩ }

def renderSegment (lines : List SubLine) : AssSegment → Option Str
  | .opaqueSegment raw => some raw
  | .dialogueSlot linePrefix lineEnding subIndex =>
    (lines[subIndex]?).map fun line => linePrefix ++ line.shown ++ lineEnding

/-- Nothing when a slot has no cue or the document has no envelope of this format. -/
def writeAss (doc : SubDoc) : Option Str :=
  match doc.envelope with
  | .ass ass => (ass.segments.mapM (renderSegment doc.lines)).map List.flatten
  | _ => none

end Trezarr
