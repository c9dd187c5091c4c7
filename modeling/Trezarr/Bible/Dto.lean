import Trezarr.Bible.Store

/-! The Bible as it is loaded for an episode. -/
namespace Trezarr
open Text

/-- The suggested terms live in memory only; a loaded event has none. -/
structure RelationshipEventDTO where
  id : ℕ
  seriesId : ℕ
  characterAId : ℕ
  characterBId : ℕ
  episodeMarker : Str
  description : Option Str := none
  suggestedSelfTerm : Option Str := none
  suggestedAddressTerm : Option Str := none
  deriving DecidableEq, Repr

structure SeriesBibleDTO where
  id : ℕ
  registerValue : Option Str := none
  characters : List Character := []
  terms : List TermDictionary := []
  addressMap : List AddressMap := []
  relationshipEvents : List RelationshipEventDTO := []
  lockedFields : List Field := []
  deriving DecidableEq, Repr

def loadSeriesBible (s : Store) (seriesId : ℕ) : Except StoreError SeriesBibleDTO :=
  match s.series.get? seriesId with
  | none => .error (.noRow .series seriesId)
  | some row => .ok
    { id := row.id
      registerValue := row.register
      characters := s.characters.select (·.seriesId = seriesId)
      terms := s.termDictionary.select (·.seriesId = seriesId)
      addressMap := s.addressMaps.select (·.seriesId = seriesId)
      relationshipEvents := (s.relationshipEvents.filter (·.seriesId = seriesId)).map fun e =>
        { id := e.id, seriesId := e.seriesId, characterAId := e.characterAId
          characterBId := e.characterBId, episodeMarker := e.episodeMarker
          description := e.description }
      lockedFields := row.lockedFields }

end Trezarr
