import Trezarr.Bible.Analyze
import Trezarr.Translate.Batch

/-! Pass 2: who speaks each line of a batch, and to whom. -/
namespace Trezarr
open Text

structure AttributionRequest where
  texts : List Str
  contextBefore : List Str
  contextAfter : List Str
  bible : SeriesBibleDTO
  thinking : Bool

abbrev BatchAttribution := List LineAttribution

def attributionRequest (batch : Batch) (bible : SeriesBibleDTO) (settings : TrezarrSettings) :
    AttributionRequest where
  texts := batch.cues.map SubLine.text
  contextBefore := (batch.contextBefore.drop
    (batch.contextBefore.length - settings.attributeContextLinesK.toNat)).map SubLine.text
  contextAfter := (batch.contextAfter.take settings.attributeContextLinesK.toNat).map SubLine.text
  bible := bible
  thinking := settings.enableReasoningAttribution

/-- The line that nothing is known of. -/
def unknownLine (i : ℕ) : LineAttribution := { lineIndex := i + 1 }

def allLowUnknown (batch : Batch) : List LineAttribution :=
  (List.range batch.cues.length).map unknownLine

/-- A name that no character has is dropped, and the confidence with it. -/
def matchNames (knownNames : List Str) (attr : LineAttribution) : LineAttribution :=
  let known (name : Option Str) : Bool := name.all fun name => nameKey name ∈ knownNames
  { lineIndex := attr.lineIndex
    speaker := if known attr.speaker then attr.speaker else none
    addressee := if known attr.addressee then attr.addressee else none
    confidence := if known attr.speaker && known attr.addressee then attr.confidence else .low }

def applyNameMatching (attributions : List LineAttribution) (bible : SeriesBibleDTO) :
    List LineAttribution :=
  attributions.map (matchNames (bible.characters.map (nameKey ·.originalLatinName)))

/-- One attribution for each cue; of several with one number the last counts. -/
def fillMissingIndices (attributions : List LineAttribution) (batchSize : ℕ) :
    List LineAttribution :=
  let byIndex := Dict.ofList (attributions.map fun attr => (attr.lineIndex, attr))
  (List.range batchSize).map fun (i : ℕ) => (byIndex.get? (i + 1)).getD (unknownLine i)

def attributionsOfReply (batch : Batch) (bible : SeriesBibleDTO)
    (attributions : List LineAttribution) : List LineAttribution :=
  fillMissingIndices (applyNameMatching attributions bible) batch.cues.length

/-- Nothing is known when a content does not validate; what the call raises goes on. -/
def attributeBatch (mode : Str) (calls : StructuredCalls AttributionRequest BatchAttribution)
    (i : ℕ) (batch : Batch) (bible : SeriesBibleDTO) (settings : TrezarrSettings) :
    Called (List LineAttribution) :=
  if !settings.enableAttribution then ⟨.ok (allLowUnknown batch), 0, []⟩
  else if mode = ("text" : Str) then ⟨.ok (allLowUnknown batch), 0, []⟩
  else
    match calls.call i (attributionRequest batch bible settings) with
    | .error err => ⟨.error err, 1, [err]⟩
    | .ok (.parsed attributions) => ⟨.ok (attributionsOfReply batch bible attributions), 1, []⟩
    | .ok (.content text) =>
      match calls.validateJson text with
      | some attributions => ⟨.ok (attributionsOfReply batch bible attributions), 1, []⟩
      | none => ⟨.ok (allLowUnknown batch), 1, []⟩

end Trezarr
