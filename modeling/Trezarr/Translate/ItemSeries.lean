import Trezarr.Bible.Metadata
import Trezarr.Discover.Scan
import Trezarr.Translate.Errors

/-! What a translation derives of its item: the series, the episode and what is known of both. -/
namespace Trezarr
open Text Regex Pattern

/-- `S(\d{2,})E(\d{2,})`, in any case. -/
def seasonEpisode : Pattern :=
  let number := seq digit (plus digit)
  seqs [charI 's', group 1 number, charI 'e', group 2 number]

/-- `(?<!\d)(\d{1,2})[xX](\d{1,3})(?!\d)`: a resolution is not an episode. -/
def plexEpisode : Pattern :=
  seqs [notBehind isDigit, group 1 (seq digit (opt digit)), oneOf "xX",
    group 2 (seq digit (opt (seq digit (opt digit)))), notAhead digit]

/-- Two places at least, a sign being one of them. -/
def twoPlaces (n : ℤ) : Str :=
  let digits := natStr n.natAbs
  if n < 0 then '-' :: digits else List.replicate (2 - digits.length) '0' ++ digits

/-- Lower case, at most twenty characters, of which letters, digits and hyphens are kept. -/
def slug (title : Str) : Str :=
  (((lower title).take 20).map fun c => if c = ' ' then '-' else c).filter fun c =>
    ('a' ≤ c && c ≤ 'z') || ('0' ≤ c && c ≤ '9') || c = '-'

def deriveEpisodeKey (mediaItem : MediaItem) (sourceSubPath : Path) : Str :=
  if mediaItem.sourceType = "episode" then
    match search seasonEpisode sourceSubPath.stem with
    | some m => ("S" : Str) ++ m.group 1 ++ ("E" : Str) ++ m.group 2
    | none =>
      match search plexEpisode sourceSubPath.stem with
      | some m =>
        let number (n : ℕ) : ℤ := ((pyInt (m.group n)).toOption.getD 0 : ℕ)
        ("S" : Str) ++ twoPlaces (number 1) ++ ("E" : Str) ++ twoPlaces (number 2)
      | none => ("S" : Str) ++ twoPlaces (mediaItem.seasonNumber.getD 0) ++ ("E00" : Str)
  else ("movie-" : Str) ++ slug ((mediaItem.title.filter (· ≠ [])).getD "movie")

/-- The service and the id that a series is looked up by. -/
def seriesIdentity (mediaItem : MediaItem) : Str × ℤ :=
  ((mediaItem.arrKind.filter (· ≠ [])).getD "sonarr", mediaItem.seriesId.getD 0)

/-- The fields the analysis is given. -/
def arrMetadata (mediaItem : MediaItem) : ArrMetadata where
  title := mediaItem.title
  genres := mediaItem.genres
  overview := mediaItem.overview
  year := mediaItem.year
  network := mediaItem.network
  runtime := mediaItem.runtime
  tvdbId := mediaItem.tvdbId
  tmdbId := mediaItem.tmdbId

end Trezarr
