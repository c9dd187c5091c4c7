import Trezarr.Lib.Regex
import Trezarr.Subtitles.Model

/-! The SubRip reader and writer. -/
namespace Trezarr
open Text Regex Regex.Pattern

def newlineRe : Pattern := seq (opt (char '\r')) (char '\n')

def blankLineRe : Pattern := seq (star (oneOf " \t")) newlineRe

/-- A line ending and the blank lines after it. -/
def sepRe : Pattern := seq newlineRe (plus blankLineRe)

def leadRe : Pattern := seq start (plus blankLineRe)

def trailRe : Pattern := seq (plus blankLineRe) finish

def clockRe : Pattern :=
  seqs [digit, digit, char ':', digit, digit, char ':', digit, digit, oneOf ",.", plus digit]

def tcRe : Pattern := seqs [group 1 clockRe, star space, lit "-->", star space, group 2 clockRe]

def indexRe : Pattern := seqs [start, plus digit, finish]

def detectLineEnding (text : Str) : Str := if contains text "\r\n" then "\r\n" else "\n"

/-- Blank lines before the first cue are kept apart only when something follows them. -/
def splitLeading (text : Str) : Str × Str :=
  match matchStart leadRe text with
  | some f => if strip f.rest ≠ [] then (f.text, f.rest) else ([], text)
  | none => ([], text)

/-- The pieces of a split and the separators between them. -/
def alternate : List Str → List Str × List Str
  | [] => ([], [])
  | [block] => ([block], [])
  | block :: sep :: tokens => (block :: (alternate tokens).1, sep :: (alternate tokens).2)

def splitTrailer (block : Str) : Str × Str :=
  match search trailRe block with
  | some f => (f.skipped, f.text)
  | none => (block, [])

/-- Empty blocks at the end go, and their separators into the trailer; both lists last first. -/
def dropEmptyTail : List Str → List Str → Str → List Str × List Str × Str
  | [] :: blocks, sep :: seps, trailer => dropEmptyTail blocks seps (sep ++ trailer)
  | [] :: blocks, [], trailer => dropEmptyTail blocks [] trailer
  | blocks, seps, trailer => (blocks, seps, trailer)

def parseBlock (block : Str) : SubLine :=
  let malformed : SubLine := ⟨[], [], [], block, some block⟩
  match splitlines block with
  | index :: tcLine :: _ =>
    match fullMatch tcRe (strip tcLine) with
    | none => malformed
    | some tc =>
      if (matchStart indexRe (strip index)).isNone then malformed
      else
        let le := detectLineEnding block
        let header := index ++ le ++ tcLine ++ le
        if header <+: block then
          ⟨strip index, tc.group 1, tc.group 2, block.drop header.length, none⟩
        else ⟨strip index, tc.group 1, tc.group 2, block, some block⟩
  | _ => malformed

def readSrt (encoding text : Str) : SubDoc :=
  let (leading, body) := splitLeading text
  let (blocks, seps) := alternate (split sepRe body)
  let (last, trailer) := splitTrailer (blocks.getLast?.getD [])
  let (blocks, seps, trailer) := dropEmptyTail (last :: blocks.reverse.tail) seps.reverse trailer
  { lines := (blocks.reverse.filter (· ≠ [])).map parseBlock
    encoding := encoding
    lineEnding := detectLineEnding text
    separators := seps.reverse.take (blocks.length - 1)
    leading := leading
    trailer := trailer }

def renderBlock (lineEnding : Str) (line : SubLine) : Str :=
  match line.raw with
  | some raw => raw
  | none =>
    line.index ++ lineEnding ++ line.startTc ++ " --> " ++ line.endTc ++ lineEnding ++ line.text

/-- Separators that are missing are blank lines. -/
def joinBlocks (lineEnding : Str) : List Str → List Str → Str
  | [], _ => []
  | [block], _ => block
  | block :: blocks, [] => block ++ lineEnding ++ lineEnding ++ joinBlocks lineEnding blocks []
  | block :: blocks, sep :: seps => block ++ sep ++ joinBlocks lineEnding blocks seps

def writeSrt (doc : SubDoc) : Str :=
  doc.leading ++ joinBlocks doc.lineEnding (doc.lines.map (renderBlock doc.lineEnding))
    doc.separators ++ doc.trailer

end Trezarr
