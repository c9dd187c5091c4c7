import Mathlib.Data.List.MinMax
import Trezarr.Bible.Merge
import Trezarr.Lib.Rows
import Trezarr.Lib.Runs

/-! The store's write operations, each one transaction: an error leaves the store as it was. -/
namespace Trezarr
open Text Rows BibleRow

def oneOrNone {α : Type} (rows : List α) : Except StoreError (Option α) :=
  (scalarOneOrNone rows).mapError fun _ => .multipleResultsFound

variable {R : Type} [BibleRow R]

def validateMergeableFields (entityType : EntityType) (fields : List Field) :
    Except StoreError Unit :=
  if fields.all (· ∈ mergeableFields entityType) then .ok ()
  else .error (.notMergeable entityType (fields.filter (· ∉ mergeableFields entityType)))

/-- The CHECK on `source` and the foreign key on `series_id` decide whether the event is stored. -/
def addEvent (s : Store) (row : R) (episodeKey : Option Str) (field : Field)
    (oldValue newValue : Option Str) (source : Str) : Except StoreError (BibleEvent × Store) :=
  match Source.ofName source with
  | none => .error .integrityError
  | some source =>
    if s.enforceFk && (s.series.get? (seriesId row)).isNone then .error .integrityError
    else
      let evt : BibleEvent :=
        { seriesId := seriesId row
          episodeKey := episodeKey
          entityType := entityType R
          entityId := Keyed.id row
          field := field
          oldValue := oldValue
          newValue := newValue
          source := source }
      .ok (evt, { s with bibleEvents := s.bibleEvents ++ [evt] })

def addRow (s : Store) (row : R) : Except StoreError (R × Store) :=
  if s.enforceFk && !references s row then .error .integrityError
  else
    let (row, t) := (table s).insert row
    .ok (row, withTable s t)

/-- One event for every field a new row starts with. -/
def addCreationEvents (row : R) (episodeKey : Option Str) (source : Str) :
    Store → List (Field × Option Str) → Except StoreError (List BibleEvent × Store)
  | s, [] => .ok ([], s)
  | s, (_, none) :: fields => addCreationEvents row episodeKey source s fields
  | s, (field, some val) :: fields => do
    let (evt, s) ← addEvent s row episodeKey field none (some val) source
    let (events, s) ← addCreationEvents row episodeKey source s fields
    return (evt :: events, s)

def createRow (s : Store) (row : R) (fields : List (Field × Option Str))
    (episodeKey : Option Str) (source : Str) : Except StoreError (R × List BibleEvent × Store) := do
  let (row, s) ← addRow s row
  let (events, s) ← addCreationEvents row episodeKey source s fields
  return (row, events, s)

def applyChanges (episodeKey : Option Str) (source : Str) :
    R → Store → List (Field × Option Str × Option Str) →
      Except StoreError (R × List BibleEvent × Store)
  | row, s, [] => .ok (row, [], s)
  | row, s, (field, oldVal, newVal) :: changes => do
    let row ← setValue row field newVal
    let (evt, s) ← addEvent s row episodeKey field oldVal newVal source
    let (row, events, s) ← applyChanges episodeKey source row s changes
    return (row, evt :: events, s)

def storeRow (s : Store) (row : R) : Store := withTable s ((table s).put row)

def mergeInferredInSession (s : Store) (row : R) (inferred : List (Field × Option Str))
    (episodeKey : Option Str) (source : Str) : Except StoreError (R × List BibleEvent × Store) := do
  validateMergeableFields (entityType R) (inferred.map Prod.fst)
  let changes := computeFieldChanges row inferred (lockedFields row)
  let (row, events, s) ← applyChanges episodeKey source row s changes
  return (row, events, storeRow s row)

def nonNull (fields : List (Field × Option Str)) : List (Field × Option Str) :=
  fields.filter (·.2.isSome)

def findCharacter (s : Store) (seriesId : ℕ) (originalLatinName : Str) : List Character :=
  s.characters.select fun row =>
    row.seriesId = seriesId ∧ asciiLower row.originalLatinName = lower (strip originalLatinName)

def upsertCharacterInSession (s : Store) (seriesId : ℕ) (originalLatinName : Str)
    (gender roughAge role episodeKey : Option Str) (source : Str) :
    Except StoreError (Character × List BibleEvent × Store) := do
  let fields := [(Field.gender, gender), (Field.roughAge, roughAge), (Field.role, role)]
  match ← oneOrNone (findCharacter s seriesId originalLatinName) with
  | none =>
    createRow s ({ id := 0, seriesId, originalLatinName, gender, roughAge, role } : Character)
      fields episodeKey source
  | some existingRow =>
    if nonNull fields = [] then return (existingRow, [], s)
    mergeInferredInSession s existingRow (nonNull fields) episodeKey source

def findTerms (s : Store) (seriesId : ℕ) (sourceTerm : Str) : List TermDictionary :=
  s.termDictionary.select fun row =>
    row.seriesId = seriesId ∧ asciiLower row.sourceTerm = lower (strip sourceTerm)

/-- An inferred rendering never replaces a non-blank one that is not locked. -/
def renderingSuppressed (row : TermDictionary) (vietnameseRendering : Option Str)
    (source : Str) : Bool :=
  vietnameseRendering.isSome && source = ("inference" : Str) &&
    strip row.vietnameseRendering ≠ [] && .vietnameseRendering ∉ row.lockedFields

def suppressedEvents (s : Store) (row : TermDictionary) (vietnameseRendering : Option Str)
    (episodeKey : Option Str) (source : Str) : Except StoreError (List BibleEvent × Store) :=
  if renderingSuppressed row vietnameseRendering source &&
      vietnameseRendering ≠ some row.vietnameseRendering then do
    let (evt, s) ← addEvent s row episodeKey .vietnameseRendering (some row.vietnameseRendering)
      vietnameseRendering source
    return ([evt], s)
  else .ok ([], s)

def upsertTermInSession (s : Store) (seriesId : ℕ) (sourceTerm : Str)
    (vietnameseRendering category episodeKey : Option Str) (source : Str) :
    Except StoreError (TermDictionary × List BibleEvent × Store) := do
  match (findTerms s seriesId sourceTerm).argmin TermDictionary.id with
  | none =>
    createRow s
      ({ id := 0, seriesId, sourceTerm, category
         vietnameseRendering := vietnameseRendering.getD [] } : TermDictionary)
      [(.vietnameseRendering, vietnameseRendering), (.category, category)] episodeKey source
  | some existingRow =>
    let (suppressed, s) ← suppressedEvents s existingRow vietnameseRendering episodeKey source
    let inferred := nonNull
      [(.vietnameseRendering,
          if renderingSuppressed existingRow vietnameseRendering source then none
          else vietnameseRendering),
       (.category, category)]
    if inferred = [] then return (existingRow, suppressed, s)
    let (row, mergeEvents, s) ← mergeInferredInSession s existingRow inferred episodeKey source
    return (row, suppressed ++ mergeEvents, s)

def findAddressPair (s : Store) (seriesId speakerCharacterId addresseeCharacterId : ℕ) :
    List AddressMap :=
  s.addressMaps.select fun row => row.seriesId = seriesId ∧
    row.speakerCharacterId = speakerCharacterId ∧ row.addresseeCharacterId = addresseeCharacterId

/-- The pair's own merge loop: absent, locked and equal fields are passed over. -/
def applyPairFields (episodeKey : Option Str) (source : Str) (locked : List Field) :
    AddressMap → Store → List (Field × Option Str) →
      Except StoreError (AddressMap × List BibleEvent × Store)
  | row, s, [] => .ok (row, [], s)
  | row, s, (field, newVal) :: fields =>
    if newVal = none ∨ field ∈ locked ∨ value row field = newVal then
      applyPairFields episodeKey source locked row s fields
    else do
      let oldVal := value row field
      let row ← setValue row field newVal
      let (evt, s) ← addEvent s row episodeKey field oldVal newVal source
      let (row, events, s) ← applyPairFields episodeKey source locked row s fields
      return (row, evt :: events, s)

def upsertAddressPairInSession (s : Store) (seriesId speakerCharacterId addresseeCharacterId : ℕ)
    (selfTerm addressTerm validFromEpisode episodeKey : Option Str) (source : Str) :
    Except StoreError (AddressMap × List BibleEvent × Store) := do
  let fields := [(Field.selfTerm, selfTerm), (Field.addressTerm, addressTerm),
    (Field.validFromEpisode, validFromEpisode)]
  match ← oneOrNone (findAddressPair s seriesId speakerCharacterId addresseeCharacterId) with
  | none =>
    createRow s
      ({ id := 0, seriesId, speakerCharacterId, addresseeCharacterId, selfTerm, addressTerm,
         validFromEpisode } : AddressMap)
      fields episodeKey source
  | some existingRow =>
    let (row, events, s) ←
      applyPairFields episodeKey source existingRow.lockedFields existingRow s fields
    return (row, events, storeRow s row)

def mergeInto (R : Type) [BibleRow R] (s : Store) (id : ℕ) (inferred : List (Field × Option Str))
    (episodeKey : Option Str) (source : Str) : Except StoreError Store := do
  validateMergeableFields (entityType R) (inferred.map Prod.fst)
  match (table (R := R) s).get? id with
  | none => .error (.noRow (entityType R) id)
  | some row =>
    let (_, _, s) ← mergeInferredInSession s row inferred episodeKey source
    return s

/-- The entity is used for its type and key only. -/
def mergeInferred (s : Store) (entity : EntityType) (id : ℕ) (inferred : Dict Field (Option Str))
    (episodeKey : Option Str) (source : Str) : Except StoreError Store :=
  if Source.ofName source = none then .error (.invalidSource source)
  else match entity with
    | .character => mergeInto Character s id inferred.entries episodeKey source
    | .termDictionary => mergeInto TermDictionary s id inferred.entries episodeKey source
    | .series => mergeInto Series s id inferred.entries episodeKey source
    | .addressMap => .error (.unsupportedDto entity)

def relock (row : R) (field : Field) (lock : Bool) : R :=
  if lock && field ∉ lockedFields row then withLocked row (lockedFields row ++ [field])
  else if !lock && field ∈ lockedFields row then withLocked row ((lockedFields row).erase field)
  else row

def humanSource (lock : Bool) : Str := if lock then "lock" else "import"

def ensureEditable (entityType : EntityType) (field : Field) : Except StoreError Unit :=
  if field ∈ mergeableFields entityType then .ok () else .error (.notEditable entityType field)

def rowOfSeries (R : Type) [BibleRow R] (s : Store) (id series : ℕ) : Except StoreError R :=
  match (table (R := R) s).get? id with
  | some row =>
    if seriesId row = series then .ok row else .error (.notFound (entityType R) id series)
  | none => .error (.notFound (entityType R) id series)

def editRow (s : Store) (row : R) (field : Field) (newValue : Option Str) (lock : Bool) :
    Except StoreError Store := do
  let oldValue := value row field
  let row ← setValue row field newValue
  let row := relock row field lock
  let (_, s) ← addEvent (storeRow s row) row none field oldValue newValue (humanSource lock)
  return s

def applyHumanEditCharacter (s : Store) (characterId seriesId : ℕ) (field : Field)
    (newValue : Option Str) (lock : Bool) : Except StoreError Store := do
  ensureEditable .character field
  let row ← rowOfSeries Character s characterId seriesId
  editRow s row field newValue lock

def applyHumanEditSeries (s : Store) (seriesId : ℕ) (field : Field) (newValue : Option Str)
    (lock : Bool) : Except StoreError Store := do
  ensureEditable .series field
  let row ← rowOfSeries Series s seriesId seriesId
  editRow s row field newValue lock

def findTermExact (s : Store) (seriesId : ℕ) (sourceTerm : Str) : List TermDictionary :=
  s.termDictionary.select fun row => row.seriesId = seriesId ∧ row.sourceTerm = sourceTerm

/-- The text a missing value is stored as. -/
def pyStr (newValue : Option Str) : Str := newValue.getD "None"

def createTerm (s : Store) (seriesId : ℕ) (sourceTerm : Str) (field : Field)
    (newValue : Option Str) (lock : Bool) : Except StoreError Store :=
  if field = .vietnameseRendering then do
    let vr := pyStr newValue
    let (row, s) ← addRow s
      ({ id := 0, seriesId, sourceTerm, vietnameseRendering := vr } : TermDictionary)
    let row := relock row field lock
    let (_, s) ← addEvent (storeRow s row) row none field none (some vr) (humanSource lock)
    return s
  else .error (.cannotCreateTerm sourceTerm field)

def applyHumanEditTerm (s : Store) (seriesId : ℕ) (sourceTerm : Option Str) (termId : Option ℕ)
    (field : Field) (newValue : Option Str) (lock : Bool) : Except StoreError Store :=
  match termId, sourceTerm with
  | none, none => .error .termKeyMissing
  | some termId, _ => do
    ensureEditable .termDictionary field
    let row ← rowOfSeries TermDictionary s termId seriesId
    editRow s row field newValue lock
  | none, some sourceTerm => do
    ensureEditable .termDictionary field
    match ← oneOrNone (findTermExact s seriesId sourceTerm) with
    | some row => editRow s row field newValue lock
    | none => createTerm s seriesId sourceTerm field newValue lock

def isBlank (term : Option Str) : Bool := strip (term.getD []) = []

def editPairTerm (s : Store) (row : AddressMap) (field : Field) (term : Option Str) (lock : Bool) :
    Except StoreError (AddressMap × Store) :=
  match term with
  | none => .ok (row, s)
  | some term =>
    if value row field = some (strip term) then .ok (row, s)
    else do
      let oldValue := value row field
      let row ← setValue row field (some (strip term))
      let (_, s) ← addEvent s row none field oldValue (some (strip term)) (humanSource lock)
      return (row, s)

/-- Both terms of a pair are locked and unlocked together. -/
def applyHumanEditAddressPair (s : Store) (addressMapId seriesId : ℕ)
    (selfTerm addressTerm : Option Str) (lock : Bool) : Except StoreError Store :=
  if lock && (isBlank selfTerm || isBlank addressTerm) then .error .emptyTermLock
  else do
    let row ← rowOfSeries AddressMap s addressMapId seriesId
    let (row, s) ← editPairTerm s row .selfTerm selfTerm lock
    let (row, s) ← editPairTerm s row .addressTerm addressTerm lock
    let row := relock (relock row .selfTerm lock) .addressTerm lock
    return storeRow s row

inductive StoreOp
  | upsertCharacter (seriesId : ℕ) (originalLatinName : Str)
      (gender roughAge role episodeKey : Option Str) (source : Str)
  | upsertTerm (seriesId : ℕ) (sourceTerm : Str)
      (vietnameseRendering category episodeKey : Option Str) (source : Str)
  | upsertAddressPair (seriesId speakerCharacterId addresseeCharacterId : ℕ)
      (selfTerm addressTerm validFromEpisode episodeKey : Option Str) (source : Str)
  | mergeInferred (entity : EntityType) (id : ℕ) (inferred : Dict Field (Option Str))
      (episodeKey : Option Str) (source : Str)
  | applyHumanEditCharacter (characterId seriesId : ℕ) (field : Field) (newValue : Option Str)
      (lock : Bool)
  | applyHumanEditAddressPair (addressMapId seriesId : ℕ) (selfTerm addressTerm : Option Str)
      (lock : Bool)
  | applyHumanEditTerm (seriesId : ℕ) (sourceTerm : Option Str) (termId : Option ℕ) (field : Field)
      (newValue : Option Str) (lock : Bool)
  | applyHumanEditSeries (seriesId : ℕ) (field : Field) (newValue : Option Str) (lock : Bool)

namespace StoreOp

def exec (s : Store) : StoreOp → Except StoreError Store
  | .upsertCharacter seriesId name gender roughAge role episodeKey source =>
    (upsertCharacterInSession s seriesId name gender roughAge role episodeKey source).map (·.2.2)
  | .upsertTerm seriesId sourceTerm vr category episodeKey source =>
    (upsertTermInSession s seriesId sourceTerm vr category episodeKey source).map (·.2.2)
  | .upsertAddressPair seriesId speaker addressee selfTerm addressTerm validFrom episodeKey source =>
    (upsertAddressPairInSession s seriesId speaker addressee selfTerm addressTerm validFrom
      episodeKey source).map (·.2.2)
  | .mergeInferred entity id inferred episodeKey source =>
    Trezarr.mergeInferred s entity id inferred episodeKey source
  | .applyHumanEditCharacter id seriesId field newValue lock =>
    Trezarr.applyHumanEditCharacter s id seriesId field newValue lock
  | .applyHumanEditAddressPair id seriesId selfTerm addressTerm lock =>
    Trezarr.applyHumanEditAddressPair s id seriesId selfTerm addressTerm lock
  | .applyHumanEditTerm seriesId sourceTerm termId field newValue lock =>
    Trezarr.applyHumanEditTerm s seriesId sourceTerm termId field newValue lock
  | .applyHumanEditSeries seriesId field newValue lock =>
    Trezarr.applyHumanEditSeries s seriesId field newValue lock

/-- The committed state: a transaction that raises is rolled back. -/
def step (s : Store) (op : StoreOp) : Store := (exec s op).toOption.getD s

end StoreOp
end Trezarr
