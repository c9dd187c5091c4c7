import Mathlib.Algebra.GroupWithZero.Nat
import Trezarr.Bible.Dto

/-! What is known of a series before it has a Bible, and the row it is given. -/
namespace Trezarr
open Text

/-- The fields of the discovery payload that are kept with the series. -/
structure ArrMetadata where
  title : Option Str := none
  genres : Option (List Str) := none
  overview : Option Str := none
  year : Option ℤ := none
  network : Option Str := none
  runtime : Option ℤ := none
  tvdbId : Option ℤ := none
  tmdbId : Option ℤ := none
  deriving DecidableEq, Repr

section Json

def jsonEscape (c : Char) : Str :=
  if c = '"' then ['\\', '"']
  else if c = '\\' then ['\\', '\\']
  else if c = '\n' then ['\\', 'n']
  else if c = '\r' then ['\\', 'r']
  else if c = '\t' then ['\\', 't']
  else if c.toNat = 8 then ['\\', 'b']
  else if c.toNat = 12 then ['\\', 'f']
  else if c.toNat < 32 then
    ['\\', 'u', '0', '0', Nat.digitChar (c.toNat / 16), Nat.digitChar (c.toNat % 16)]
  else [c]

def jsonString (text : Str) : Str := '"' :: text.flatMap jsonEscape ++ ['"']

def jsonInt (n : ℤ) : Str := (toString n).toList

def jsonList (items : List Str) : Str := '[' :: join (", ".toList) items ++ [']']

def jsonField (key : Str) (value : Option Str) : List Str :=
  (value.map fun text => jsonString key ++ ": ".toList ++ text).toList

/-- The fields that are known, in the order they are taken from the item. -/
def ArrMetadata.json (m : ArrMetadata) : Str :=
  let fields := jsonField "title" (m.title.map jsonString) ++
    jsonField "genres" (m.genres.map fun genres => jsonList (genres.map jsonString)) ++
    jsonField "overview" (m.overview.map jsonString) ++ jsonField "year" (m.year.map jsonInt) ++
    jsonField "network" (m.network.map jsonString) ++ jsonField "runtime" (m.runtime.map jsonInt) ++
    jsonField "tvdb_id" (m.tvdbId.map jsonInt) ++ jsonField "tmdb_id" (m.tmdbId.map jsonInt)
  '\x7b' :: join (", ".toList) fields ++ ['\x7d']

end Json

def maxArrMetadataBytes : ℕ := 32 * 1024

def findSeries (s : Store) (arrKind arrInstance : Str) (arrSeriesId : ℤ) : List Series :=
  s.series.select fun row => row.arrKind = arrKind ∧ row.arrInstance = arrInstance ∧
    row.arrSeriesId = arrSeriesId

/-- The row of a series, created on its first episode. -/
def getOrCreateSeries (s : Store) (arrKind : Str) (arrSeriesId : ℤ) (metadata : ArrMetadata) :
    Except StoreError (Series × Store) := do
  if maxArrMetadataBytes < (metadata.json.map Char.utf8Size).sum then
    .error .metadataTooLarge
  else
    match ← oneOrNone (findSeries s arrKind "default" arrSeriesId) with
    | some row => return (row, s)
    | none => addRow s ({ id := 0, arrKind, arrSeriesId } : Series)

end Trezarr
