import Trezarr.Lib.Table
import Trezarr.Lib.Text

/-! The Bible's tables. Fields are text; what a lock names is one of them. -/
namespace Trezarr
open Text

inductive EntityType
  | character
  | termDictionary
  | series
  | addressMap
  deriving DecidableEq, Repr

/-- The fields a merge may write, and any other name. -/
inductive Field
  | gender
  | roughAge
  | role
  | vietnameseRendering
  | category
  | register
  | selfTerm
  | addressTerm
  | validFromEpisode
  | other (name : Str)
  deriving DecidableEq, Repr

/-- The last three fields say which series of which service it is. -/
structure Series where
  id : ℕ
  register : Option Str := none
  lockedFields : List Field := []
  arrKind : Str := "sonarr"
  arrInstance : Str := "default"
  arrSeriesId : ℤ := 0
  deriving DecidableEq, Repr

structure Character where
  id : ℕ
  seriesId : ℕ
  originalLatinName : Str
  gender : Option Str := none
  roughAge : Option Str := none
  role : Option Str := none
  lockedFields : List Field := []
  deriving DecidableEq, Repr

/-- The rendering is NOT NULL. -/
structure TermDictionary where
  id : ℕ
  seriesId : ℕ
  sourceTerm : Str
  vietnameseRendering : Str
  category : Option Str := none
  lockedFields : List Field := []
  deriving DecidableEq, Repr

structure AddressMap where
  id : ℕ
  seriesId : ℕ
  speakerCharacterId : ℕ
  addresseeCharacterId : ℕ
  selfTerm : Option Str := none
  addressTerm : Option Str := none
  validFromEpisode : Option Str := none
  lockedFields : List Field := []
  deriving DecidableEq, Repr

structure RelationshipEvent where
  id : ℕ
  seriesId : ℕ
  characterAId : ℕ
  characterBId : ℕ
  episodeMarker : Str
  description : Option Str := none
  deriving DecidableEq, Repr

/-- The provenance a CHECK constraint admits. -/
inductive Source
  | inference
  | lock
  | «import»
  | system
  deriving DecidableEq, Repr

def Source.name : Source → Str
  | .inference => "inference"
  | .lock => "lock"
  | .import => "import"
  | .system => "system"

def Source.ofName (s : Str) : Option Source :=
  [inference, lock, .import, system].find? (·.name = s)

structure BibleEvent where
  seriesId : ℕ
  episodeKey : Option Str
  entityType : EntityType
  entityId : ℕ
  field : Field
  oldValue : Option Str
  newValue : Option Str
  source : Source
  deriving DecidableEq, Repr

inductive StoreError
  | multipleResultsFound
  | integrityError
  | invalidSource (source : Str)
  | notMergeable (entityType : EntityType) (unknown : List Field)
  | notEditable (entityType : EntityType) (field : Field)
  | notFound (entityType : EntityType) (id seriesId : ℕ)
  | noRow (entityType : EntityType) (id : ℕ)
  | unsupportedDto (entityType : EntityType)
  | termKeyMissing
  | cannotCreateTerm (sourceTerm : Str) (field : Field)
  | emptyTermLock
  | metadataTooLarge
  deriving DecidableEq, Repr

instance : Keyed Series := ⟨Series.id, fun n r => { r with id := n }, fun _ _ => rfl⟩

theorem nodup_firstSeries : (([{ id := 1 }] : List Series).map Keyed.id).Nodup := by decide

instance : Keyed Character := ⟨Character.id, fun n r => { r with id := n }, fun _ _ => rfl⟩

instance : Keyed TermDictionary := ⟨TermDictionary.id, fun n r => { r with id := n }, fun _ _ => rfl⟩

instance : Keyed AddressMap := ⟨AddressMap.id, fun n r => { r with id := n }, fun _ _ => rfl⟩

/-- The database. `enforceFk` is the connection's foreign key setting. -/
structure Store where
  series : Table Series := Table.empty
  characters : Table Character := Table.empty
  termDictionary : Table TermDictionary := Table.empty
  addressMaps : Table AddressMap := Table.empty
  relationshipEvents : List RelationshipEvent := []
  bibleEvents : List BibleEvent := []
  enforceFk : Bool := true

end Trezarr
