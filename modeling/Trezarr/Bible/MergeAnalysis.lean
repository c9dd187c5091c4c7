import Trezarr.Bible.NameTerms
import Trezarr.Translate.Names

/-! An analysis merged into the Bible, one store call after the other. -/
namespace Trezarr
open Text

/-- The same transition of the same pair in the same episode is recorded once. -/
def findRelationshipEvents (s : Store) (seriesId characterAId characterBId : ℕ)
    (episodeMarker : Str) : List RelationshipEvent :=
  s.relationshipEvents.filter fun row => row.seriesId = seriesId ∧
    row.characterAId = characterAId ∧ row.characterBId = characterBId ∧
    row.episodeMarker = episodeMarker

def recordRelationshipEvent (s : Store) (seriesId characterAId characterBId : ℕ)
    (episodeMarker : Str) (description : Option Str) : Except StoreError Store := do
  match ← oneOrNone (findRelationshipEvents s seriesId characterAId characterBId episodeMarker) with
  | some _ => return s
  | none =>
    if s.enforceFk && !((s.series.get? seriesId).isSome &&
        (s.characters.get? characterAId).isSome && (s.characters.get? characterBId).isSome) then
      .error .integrityError
    else
      let id := s.relationshipEvents.foldr (fun row n => max (row.id + 1) n) 1
      let row : RelationshipEvent :=
        ⟨id, seriesId, characterAId, characterBId, episodeMarker, description⟩
      return { s with relationshipEvents := s.relationshipEvents ++ [row] }

/-- The calls a merge makes to the store, told apart by what they are about. -/
inductive MergeCall
  | register
  | existingBible
  | character (i : ℕ)
  | term (i : ℕ)
  | existingTerms
  | nameTerm (i : ℕ)
  | addressPair (i : ℕ)
  | relationshipEvent (i : ℕ)
  deriving DecidableEq, Repr

/-- The store, what the names resolve to and how many calls of one kind were made and failed. -/
structure Merging where
  store : Store
  nameToId : Dict Str ℕ
  attempted : ℕ := 0
  failed : ℕ := 0

def lookupName (nameToId : Dict Str ℕ) (name : Str) : Option ℕ :=
  match nameToId.get? (nameKey name) with
  | none | some 0 => nameToId.get? (normalizeName name)
  | some id => some id

section Merge

variable (down : MergeCall → Bool) (seriesId : ℕ) (analysis : BibleAnalysis) (episodeKey : Str)

/-- A call fails with the store, or with what it is asked; either way nothing is stored. -/
def attempt {α : Type} (call : MergeCall) (result : Except StoreError α) : Option α :=
  if down call then none else result.toOption

def mergeRegister (s : Store) : Store :=
  let reg := stripped analysis.registerValue
  if reg = [] then s
  else
    (attempt down .register (mergeInferred s .series seriesId (Dict.ofList [(.register, some reg)])
      (some episodeKey) "inference")).getD s

/-- What names resolve to before the characters of the analysis are stored. -/
def existingNames (existing : Option SeriesBibleDTO) : Dict Str ℕ :=
  match existing with
  | some bible => Dict.ofList (bible.characters.map fun c => (nameKey c.originalLatinName, c.id))
  | none => Dict.empty

def indexCharacter (nameToId : Dict Str ℕ) (c : CharacterInference) (id : ℕ) : Dict Str ℕ :=
  let nameToId := nameToId.set (nameKey c.originalLatinName) id
  if stripped c.originalScriptName ≠ [] then
    nameToId.set (lower (stripped c.originalScriptName)) id
  else nameToId

def mergeCharacterRow (st : Merging) (c : CharacterInference) (i : ℕ) : Merging :=
  match attempt down (.character i) (upsertCharacterInSession st.store seriesId
    c.originalLatinName c.gender c.roughAge c.role (some episodeKey) "inference") with
  | some (row, _, s) => { st with store := s, nameToId := indexCharacter st.nameToId c row.id }
  | none => { st with failed := st.failed + 1 }

def mergeTermRow (st : Merging) (t : TermInference) (i : ℕ) : Merging :=
  match attempt down (.term i) (upsertTermInSession st.store seriesId t.sourceTerm
    (some t.vietnameseRendering) t.category (some episodeKey) "inference") with
  | some (_, _, s) => { st with store := s }
  | none => { st with failed := st.failed + 1 }

/-- A name that cannot be locked is left to later episodes. -/
def lockName (s : Store) (spec : NameTermSpec) (i : ℕ) : Store :=
  (attempt down (.nameTerm i) (applyHumanEditTerm s seriesId (some spec.sourceTerm) none
    .vietnameseRendering (some spec.vietnameseRendering) true)).getD s

def lockNames (s : Store) : Store :=
  let existing := (attempt down .existingTerms (loadSeriesBible s seriesId)).map SeriesBibleDTO.terms
  (planCharacterNameTerms analysis.characters (existing.getD [])).zipIdx.foldl
    (fun s (spec, i) => lockName down seriesId s spec i) s

/-- Terms are written for a new pair only; for a stored one the call writes nothing. -/
def mergePairRow (existingPairs : List (ℕ × ℕ)) (st : Merging) (p : AddressMapInference) (i : ℕ) :
    Merging :=
  match lookupName st.nameToId p.speakerName, lookupName st.nameToId p.addresseeName with
  | some spk, some addr =>
    let new (text : Str) := if (spk, addr) ∈ existingPairs then none else some text
    match attempt down (.addressPair i) (upsertAddressPairInSession st.store seriesId spk addr
      (new p.selfTerm) (new p.addressTerm) (new episodeKey) (some episodeKey) "inference") with
    | some (_, _, s) => { st with store := s, attempted := st.attempted + 1 }
    | none => { st with attempted := st.attempted + 1, failed := st.failed + 1 }
  | _, _ => st

/-- Events are advisory: none of them fails the merge. -/
def mergeEventRow (nameToId : Dict Str ℕ) (s : Store) (e : RelationshipEventInference) (i : ℕ) :
    Store :=
  match lookupName nameToId e.characterAName, lookupName nameToId e.characterBName with
  | some a, some b =>
    (attempt down (.relationshipEvent i)
      (recordRelationshipEvent s seriesId a b episodeKey (some e.description))).getD s
  | _, _ => s

def mergeCharacters (st : Merging) : Merging :=
  analysis.characters.zipIdx.foldl
    (fun st (c, i) => mergeCharacterRow down seriesId episodeKey st c i) st

def mergeTerms (st : Merging) : Merging :=
  analysis.terms.zipIdx.foldl
    (fun st (t, i) => mergeTermRow down seriesId episodeKey st t i) { st with failed := 0 }

def mergePairs (existingPairs : List (ℕ × ℕ)) (st : Merging) : Merging :=
  analysis.addressMap.zipIdx.foldl
    (fun st (p, i) => mergePairRow down seriesId episodeKey existingPairs st p i)
    { st with failed := 0 }

def mergeEvents (nameToId : Dict Str ℕ) (s : Store) : Store :=
  analysis.relationshipEvents.zipIdx.foldl
    (fun s (e, i) => mergeEventRow down seriesId episodeKey nameToId s e i) s

/-- What was stored before an error stays. -/
def mergeBibleAnalysis (settings : TrezarrSettings) (s : Store) :
    Store × Except BibleAnalysisError Unit :=
  let s := mergeRegister down seriesId analysis episodeKey s
  let existing := attempt down .existingBible (loadSeriesBible s seriesId)
  let existingPairs := (existing.map fun bible => bible.addressMap.map fun a =>
    (a.speakerCharacterId, a.addresseeCharacterId)).getD []
  let st := mergeCharacters down seriesId analysis episodeKey ⟨s, existingNames existing, 0, 0⟩
  if analysis.characters ≠ [] ∧ st.failed = analysis.characters.length then
    (st.store, .error (.characters st.failed seriesId episodeKey))
  else
    let st := mergeTerms down seriesId analysis episodeKey st
    if analysis.terms ≠ [] ∧ st.failed = analysis.terms.length then
      (st.store, .error (.terms st.failed seriesId episodeKey))
    else
      let st := { st with store := lockNames down seriesId analysis st.store }
      let st := mergePairs down seriesId analysis episodeKey existingPairs st
      if 0 < st.attempted ∧ st.failed = st.attempted then
        (st.store, .error (.addressPairs st.failed seriesId episodeKey))
      else if settings.enableRelationshipEvents then
        (mergeEvents down seriesId analysis episodeKey st.nameToId st.store, .ok ())
      else (st.store, .ok ())

end Merge

end Trezarr
