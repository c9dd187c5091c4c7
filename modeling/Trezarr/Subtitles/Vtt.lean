import Trezarr.Subtitles.Srt

/-! The WebVTT reader and writer. -/
namespace Trezarr
open Text Regex Regex.Pattern

def notSpace : Pattern := set fun c => !isSpace c

def vttTcSplitRe : Pattern :=
  seqs [start, group 1 (plus notSpace), star space, lit "-->", star space,
    group 2 (plus notSpace)]

/-- What is after the first occurrence. -/
def afterFirst (part : Str) : Str → Option Str
  | [] => if part = [] then some [] else none
  | c :: s => if part <+: c :: s then some ((c :: s).drop part.length) else afterFirst part s

def skipBreak : Str → Str
  | '\r' :: '\n' :: s => s
  | '\r' :: s => s
  | '\n' :: s => s
  | s => s

def skipLine (line text : Str) : Str :=
  match afterFirst line text with
  | some rest => skipBreak rest
  | none => text

def extractPayload (block : Str) (identifierLine : Option Str) (timingLine : Str) : Str :=
  skipLine timingLine (match identifierLine with
    | some line => skipLine line block
    | none => block)

def isOpaqueHead (line : Str) : Bool :=
  "NOTE".toList <+: line || "STYLE".toList <+: line || "REGION".toList <+: line

/-- The identifier, if any, and the timing line of a cue block. -/
def timingOf : List Str → Option (Option Str × Str)
  | [] => none
  | first :: rest =>
    if isOpaqueHead first then none
    else if contains first "-->" then some (none, first)
    else match rest with
      | second :: _ => if contains second "-->" then some (some first, second) else none
      | [] => none

structure VttState where
  blocks : List VttBlock := []
  lines : List SubLine := []

def parseVttBlock (le : Str) (st : VttState) (block trailingSep : Str) : VttState :=
  let asOpaque := { st with blocks := st.blocks ++ [.opaqueBlock block trailingSep] }
  match timingOf (splitlines block) with
  | none => asOpaque
  | some (identifierLine, timingLine) =>
    match matchStart vttTcSplitRe (strip timingLine) with
    | none => asOpaque
    | some tc =>
      { blocks := st.blocks ++
          [.cueBlock identifierLine timingLine le st.lines.length trailingSep]
        lines := st.lines ++
          [⟨[], tc.group 1, tc.group 2, extractPayload block identifierLine timingLine, none⟩] }

/-- Blocks with the separators after them; the last block may have none. -/
def pairBlocks : List Str → List (Str × Str)
  | [] => []
  | [block] => [(block, [])]
  | block :: sep :: tokens => (block, sep) :: pairBlocks tokens

def readVtt (encoding text : Str) : SubDoc :=
  let le := detectLineEnding text
  let st : VttState := match pairBlocks (split sepRe text) with
    | [] => {}
    | (header, sep) :: blocks =>
      blocks.foldl (fun st b => parseVttBlock le st b.1 b.2) { blocks := [.opaqueBlock header sep] }
  { lines := st.lines
    encoding := encoding
    lineEnding := le
    separators := []
    envelope := .vtt ⟨st.blocks, encoding, le⟩ }

def renderVttBlock (le : Str) (lines : List SubLine) : VttBlock → Option Str
  | .opaqueBlock raw trailingSep => some (raw ++ trailingSep)
  | .cueBlock identifierLine timingLine _ subIndex trailingSep =>
    (lines[subIndex]?).map fun line =>
      (match identifierLine with
        | some identifier => identifier ++ le
        | none => []) ++ timingLine ++ le ++ line.shown ++ trailingSep

def writeVtt (doc : SubDoc) : Option Str :=
  match doc.envelope with
  | .vtt vtt => (vtt.blocks.mapM (renderVttBlock vtt.lineEnding doc.lines)).map List.flatten
  | _ => none

end Trezarr
