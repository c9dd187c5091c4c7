import Trezarr.Bible.Identity
import Trezarr.Bible.Metadata
import Trezarr.Config
import Trezarr.Subtitles.Model
import Trezarr.Translate.Errors

/-! Pass 1: the whole file analysed in chunks, and the replies merged into one analysis. -/
namespace Trezarr
open Text

structure CharacterInference where
  originalLatinName : Str
  gender : Option Str := none
  roughAge : Option Str := none
  role : Option Str := none
  originalScriptName : Option Str := none
  vietnameseRendering : Option Str := none
  deriving DecidableEq, Repr

structure TermInference where
  sourceTerm : Str
  vietnameseRendering : Str
  category : Option Str := none
  deriving DecidableEq, Repr

structure AddressMapInference where
  speakerName : Str
  addresseeName : Str
  selfTerm : Str
  addressTerm : Str
  deriving DecidableEq, Repr

structure RelationshipEventInference where
  characterAName : Str
  characterBName : Str
  description : Str
  suggestedSelfTerm : Option Str := none
  suggestedAddressTerm : Option Str := none
  deriving DecidableEq, Repr

structure BibleAnalysis where
  registerValue : Option Str := none
  characters : List CharacterInference := []
  terms : List TermInference := []
  addressMap : List AddressMapInference := []
  relationshipEvents : List RelationshipEventInference := []
  deriving DecidableEq, Repr

/-- Every chunk failed to parse, or every upsert of one kind failed. -/
inductive BibleAnalysisError
  | chunks (failed : ℕ) (episodeKey : Str)
  | characters (failed seriesId : ℕ) (episodeKey : Str)
  | terms (failed seriesId : ℕ) (episodeKey : Str)
  | addressPairs (failed seriesId : ℕ) (episodeKey : Str)
  deriving DecidableEq, Repr

structure AnalysisRequest where
  texts : List Str
  bible : SeriesBibleDTO
  arrMetadata : ArrMetadata
  episodeKey : Str
  thinking : Bool

/-- What a structured call returns: the parsed object, or a content that the caller validates. -/
inductive Structured (α : Type)
  | parsed (value : α)
  | content (text : Str)

/-- Structured calls, told apart by their number, and the validation of a content. -/
structure StructuredCalls (ρ α : Type) where
  call : ℕ → ρ → Except PyError (Structured α)
  validateJson : Str → Option α

/-- The chunks start at every multiple of the limit. -/
def chunksOf {α : Type} (limit : ℕ) (xs : List α) : List (List α) :=
  (List.range ((xs.length + limit - 1) / limit)).map fun i => (xs.drop (i * limit)).take limit

def pass1Chunks (maxCues : ℤ) (texts : List Str) : List (List Str) :=
  if 0 < maxCues then
    let chunks := chunksOf maxCues.toNat texts
    if chunks = [] then [[]] else chunks
  else [texts]

def isTruthy (text : Option Str) : Bool := text.getD [] ≠ []

/-- A field that is still empty takes what a later chunk supplies. -/
def fillField (kept new : Option Str) : Option Str :=
  if !isTruthy kept && isTruthy new then new else kept

def fillCharacter (kept new : CharacterInference) : CharacterInference :=
  { kept with
    vietnameseRendering := fillField kept.vietnameseRendering new.vietnameseRendering
    gender := fillField kept.gender new.gender
    roughAge := fillField kept.roughAge new.roughAge
    role := fillField kept.role new.role
    originalScriptName := fillField kept.originalScriptName new.originalScriptName }

def mergeCharacter (merged : List CharacterInference) (c : CharacterInference) :
    List CharacterInference :=
  let key := nameKey c.originalLatinName
  if key = [] then merged
  else if key ∈ merged.map (nameKey ·.originalLatinName) then
    merged.map fun kept =>
      if nameKey kept.originalLatinName = key then fillCharacter kept c else kept
  else merged ++ [c]

/-- The first entry of a key stays. -/
def mergeFirst {α κ : Type} [DecidableEq κ] (key : α → κ) (merged : List α) (a : α) : List α :=
  if key a ∈ merged.map key then merged else merged ++ [a]

def termKey (t : TermInference) : Str := nameKey t.sourceTerm

def pairKey (p : AddressMapInference) : Str × Str :=
  (nameKey p.speakerName, nameKey p.addresseeName)

def eventKey (e : RelationshipEventInference) : Str × Str × Str :=
  (nameKey e.characterAName, nameKey e.characterBName, nameKey e.description)

def mergeChunk (merged part : BibleAnalysis) : BibleAnalysis where
  registerValue :=
    if strip (merged.registerValue.getD []) = [] ∧ strip (part.registerValue.getD []) ≠ [] then
      part.registerValue
    else merged.registerValue
  characters := part.characters.foldl mergeCharacter merged.characters
  terms := (part.terms.filter (termKey · ≠ [])).foldl (mergeFirst termKey) merged.terms
  addressMap := part.addressMap.foldl (mergeFirst pairKey) merged.addressMap
  relationshipEvents :=
    part.relationshipEvents.foldl (mergeFirst eventKey) merged.relationshipEvents

/-- What the chunks so far came to, and what the endpoint raised in them. -/
structure Tally where
  merged : BibleAnalysis := {}
  failed : ℕ := 0
  failures : List PyError := []

inductive AnalyzeError
  | analysis (err : BibleAnalysisError)
  | python (err : PyError)
  deriving DecidableEq, Repr

structure Analyzed where
  result : Except AnalyzeError BibleAnalysis
  failures : List PyError := []

section Chunks

variable (calls : StructuredCalls AnalysisRequest BibleAnalysis)
  (request : List Str → AnalysisRequest)

/-- A chunk whose reply does not validate is passed over; any other error ends the loop. -/
def analyzeChunks : List (List Str × ℕ) → Tally → Except PyError Unit × Tally
  | [], tally => (.ok (), tally)
  | (texts, i) :: chunks, tally =>
    if texts = [] then analyzeChunks chunks tally
    else
      match calls.call i (request texts) with
      | .ok (.parsed part) =>
        analyzeChunks chunks { tally with merged := mergeChunk tally.merged part }
      | .ok (.content text) =>
        match calls.validateJson text with
        | some part => analyzeChunks chunks { tally with merged := mergeChunk tally.merged part }
        | none => analyzeChunks chunks { tally with failed := tally.failed + 1 }
      | .error .validationError =>
        analyzeChunks chunks
          { tally with
            failed := tally.failed + 1
            failures := tally.failures ++ [.validationError] }
      | .error err => (.error err, { tally with failures := tally.failures ++ [err] })

end Chunks

def analyzeFile (mode : Str) (calls : StructuredCalls AnalysisRequest BibleAnalysis)
    (source : SubDoc) (bible : SeriesBibleDTO) (arrMetadata : ArrMetadata)
    (settings : TrezarrSettings) (episodeKey : Str) : Analyzed :=
  if !settings.enablePass1Analysis then ⟨.ok {}, []⟩
  else if mode = ("text" : Str) then ⟨.ok {}, []⟩
  else
    let texts := (source.lines.map SubLine.text).filter (strip · ≠ [])
    let chunks := pass1Chunks settings.pass1MaxCuesPerChunk texts
    let request texts : AnalysisRequest :=
      ⟨texts, bible, arrMetadata, episodeKey, settings.enableReasoningAnalysis⟩
    match analyzeChunks calls request chunks.zipIdx {} with
    | (.error err, tally) => ⟨.error (.python err), tally.failures⟩
    | (.ok _, tally) =>
      let nonEmpty := chunks.countP (· ≠ [])
      if 0 < nonEmpty ∧ tally.failed = nonEmpty then
        ⟨.error (.analysis (.chunks tally.failed episodeKey)), tally.failures⟩
      else ⟨.ok tally.merged, tally.failures⟩

end Trezarr
