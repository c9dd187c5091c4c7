import Trezarr.Lib.Dict
import Trezarr.Lib.Text

/-! Character names as attributions carry them: exact first, then without their honorifics. -/
namespace Trezarr
open Text

def honorificPrefixes : List Str :=
  ["mr", "mrs", "ms", "miss", "sir", "madam", "master", "elder", "senior", "brother", "sister",
   "lord", "lady", "young"]

/-- Leading honorifics go while another token is left. -/
def peelHonorifics : List Str → List Str
  | [] => []
  | [token] => [token]
  | token :: next :: tokens =>
    if token.rdropWhile (· = '.') ∈ honorificPrefixes then peelHonorifics (next :: tokens)
    else token :: next :: tokens

def normalizeName (name : Str) : Str :=
  let base := lower (strip name)
  if base = [] then base
  else
    let stripped := strip (join [' '] (peelHonorifics (splitWords base)))
    if stripped = [] then base else stripped

/-- An absent name resolves to nothing; a zero id counts as absent in the first lookup. -/
def resolveCharId (nameToCharId : Dict Str ℕ) (name : Option Str) : Option ℕ :=
  match name with
  | none | some [] => none
  | some name =>
    match nameToCharId.get? (lower (strip name)) with
    | none | some 0 => nameToCharId.get? (normalizeName name)
    | some id => some id

end Trezarr
