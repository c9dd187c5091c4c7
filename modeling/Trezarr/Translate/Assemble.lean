import Trezarr.Translate.Batching

/-! Texts put back into the cues they belong to. -/
namespace Trezarr
open Text

/-- Each cue that is not raw takes the next text; what is left of the queue is kept. -/
def assembleLines : List SubLine → List Str → Option (List SubLine × List Str)
  | [], queue => some ([], queue)
  | line :: lines, queue =>
    match line.raw, queue with
    | some _, queue => (assembleLines lines queue).map fun r => (line :: r.1, r.2)
    | none, [] => none
    | none, text :: queue =>
      (assembleLines lines queue).map fun r => ({ line with text := text } :: r.1, r.2)

def withLines (doc : SubDoc) (lines : List SubLine) : SubDoc := { doc with lines := lines }

/-- One entry for each reviewed cue, in the order of the document. -/
def corrections (batches : List Batch) (results : List (Option (List Str))) :
    List (Option (SubLine × Str)) :=
  (batches.zip results).flatMap fun (batch, texts) =>
    match texts with
    | none => batch.cues.map fun _ => none
    | some texts => batch.cues.zipIdx.map fun (cue, i) => texts[i]?.map fun text => (cue, text)

def spliceCorrections : List SubLine → List (Option (SubLine × Str)) → Option (List SubLine)
  | [], _ => some []
  | line :: lines, corrs =>
    match line.raw, corrs with
    | some _, corrs => (spliceCorrections lines corrs).map (line :: ·)
    | none, [] => none
    | none, none :: corrs => (spliceCorrections lines corrs).map (line :: ·)
    | none, some (cue, text) :: corrs =>
      (spliceCorrections lines corrs).map
        (⟨cue.index, cue.startTc, cue.endTc, text, none⟩ :: ·)

def spliceReviewCorrections (lines : List SubLine) (batches : List Batch)
    (results : List (Option (List Str))) : Option (List SubLine) :=
  spliceCorrections lines (corrections batches results)

/-- The bracket opened at the start is closed at the end and not before. -/
def spans (opener closer : Char) : ℤ → Str → Bool
  | depth, [] => depth = 0
  | depth, c :: rest =>
    let depth := if c = opener then depth + 1 else if c = closer then depth - 1 else depth
    if depth = 0 ∧ rest ≠ [] then false else spans opener closer depth rest

def closerOf (opener : Char) : Option Char :=
  if opener = '(' then some ')' else if opener = '[' then some ']' else none

/-- The outer brackets of a text that one pair encloses. -/
def envelopeOf (text : Str) : Option (Char × Char) :=
  let stripped := strip text
  if stripped.length < 2 then none
  else match stripped.head? with
    | none => none
    | some opener =>
      match closerOf opener with
      | none => none
      | some closer =>
        if stripped.getLast? = some closer ∧ spans opener closer 0 stripped then
          some (opener, closer)
        else none

def isWrapped (opener closer : Char) (text : Str) : Bool :=
  (strip text).head? = some opener && (strip text).getLast? = some closer

def preserveEnvelope (src trn : SubLine) : SubLine :=
  if trn.raw.isSome then trn
  else match envelopeOf src.text with
    | none => trn
    | some (opener, closer) =>
      if isWrapped opener closer trn.text then trn
      else ⟨src.index, src.startTc, src.endTc, opener :: trn.text ++ [closer], none⟩

def preserveSourceEnvelopes (translated source : SubDoc) (settings : TrezarrSettings) : SubDoc :=
  if settings.enableEnvelopePreservation then
    withLines translated (List.zipWith preserveEnvelope source.lines translated.lines)
  else translated

end Trezarr
