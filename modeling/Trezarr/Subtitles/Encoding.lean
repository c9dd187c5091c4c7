import Mathlib.Data.List.Basic
import Trezarr.Output.Files

/-! From bytes to text and back. -/
namespace Trezarr
open Text

def encodeUtf8 (text : Str) : Bytes := text.flatMap String.utf8EncodeChar

def decodeUtf8? (data : Bytes) : Option Str := data.toByteArray.utf8Decode?.map Array.toList

/-- The statistical detector, and the decoders that replace what they cannot read. -/
structure Codecs where
  bestGuess : Bytes → Option Str
  decodeReplacing : Str → Bytes → Str

def cjkCodecs : List Str :=
  ["big5", "gb2312", "gb18030", "euc-kr", "euc-jp", "shift-jis", "shift_jis"]

def detectEncoding (codecs : Codecs) (data : Bytes) : Str :=
  if data.take 3 = [0xEF, 0xBB, 0xBF] then "utf-8-sig"
  else if data.take 2 = [0xFF, 0xFE] then "utf-16-le"
  else if data.take 2 = [0xFE, 0xFF] then "utf-16-be"
  else if (decodeUtf8? data).isSome then "utf-8"
  else match codecs.bestGuess data with
    | none => "utf-8"
    | some detected => if lower detected ∈ cjkCodecs then "utf-8" else detected

/-- `utf-8-sig` drops a mark at the front. -/
def decode (codecs : Codecs) (encoding : Str) (data : Bytes) : Str :=
  let body :=
    if encoding = ("utf-8-sig" : Str) ∧ data.take 3 = [0xEF, 0xBB, 0xBF] then data.drop 3 else data
  if encoding = ("utf-8" : Str) ∨ encoding = ("utf-8-sig" : Str) then
    (decodeUtf8? body).getD (codecs.decodeReplacing "utf-8" body)
  else codecs.decodeReplacing encoding data

end Trezarr
