import Trezarr.Output.Sidecar
import Trezarr.Subtitles.Ass
import Trezarr.Subtitles.Encoding
import Trezarr.Subtitles.Vtt

/-! Readers and writers by file extension. -/
namespace Trezarr
open Text

inductive Format
  | srt
  | ass
  | vtt
  deriving DecidableEq, Repr

def Format.ofSuffix (suffix : Str) : Option Format :=
  let suffix := lower suffix
  if suffix = (".srt" : Str) then some .srt
  else if suffix = (".ass" : Str) ∨ suffix = (".ssa" : Str) then some .ass
  else if suffix = (".vtt" : Str) then some .vtt
  else none

/-- What is raised instead of a document. -/
inductive ReadError
  | unsupported (suffix : Str)
  | os (err : OSError)
  | index
  deriving DecidableEq, Repr

def Format.read (format : Format) (encoding text : Str) : Except IndexError SubDoc :=
  match format with
  | .srt => .ok (readSrt encoding text)
  | .ass => readAss encoding text
  | .vtt => .ok (readVtt encoding text)

def Format.write (format : Format) (doc : SubDoc) : Option Str :=
  match format with
  | .srt => some (writeSrt doc)
  | .ass => writeAss doc
  | .vtt => writeVtt doc

def Format.readBytes (format : Format) (codecs : Codecs) (data : Bytes) :
    Except IndexError SubDoc :=
  let encoding := detectEncoding codecs data
  format.read encoding (decode codecs encoding data)

def readSubtitle (codecs : Codecs) (fs : FileSystem) (path : Path) : Except ReadError SubDoc :=
  match Format.ofSuffix path.suffix with
  | none => .error (.unsupported path.suffix)
  | some format => do
    let data ← (fs.readBytes path).mapError .os
    (format.readBytes codecs data).mapError fun _ => .index

end Trezarr
