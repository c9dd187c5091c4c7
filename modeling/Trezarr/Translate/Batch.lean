import Trezarr.Translate.Batching
import Trezarr.Translate.Prompt
import Trezarr.Translate.Sentinel
import Trezarr.Translate.Validate

/-! One batch through the model: requests, replies and the bounded correction loop. -/
namespace Trezarr
open Text Regex Regex.Pattern Fallible

/-- A result, the number of calls it took and what the endpoint raised in them. -/
structure Called (α : Type) where
  result : Except PyError α
  calls : ℕ
  failures : List PyError := []

/-- The numbers of the cues that were sent with a line break inside. -/
def multilineIndices (cleaned : List Str) : List ℕ :=
  (cleaned.zipIdx 1).filterMap fun (text, i) => if '\n' ∈ text then some i else none

def restoreCue (i : ℕ) (text : Str) (sentinels : SentinelMap) : Except PyError Str :=
  let (restored, ok) := reinsertSentinels text sentinels
  if ok then .ok restored else .error (.batchValidation (.sentinelIntegrity i restored))

def restoreCues : ℕ → List Str → List SentinelMap → Except PyError (List Str)
  | _, [], _ | _, _ :: _, [] => .ok []
  | i, text :: texts, sentinels :: maps => do
    let restored ← restoreCue i text sentinels
    return restored :: (← restoreCues (i + 1) texts maps)

/-- A reply as one restored text for each cue of the batch. -/
def decodeReply (cues : List SubLine) (reply : Str) : Except PyError (List Str) := do
  let extracted := cues.map fun cue => extractSentinels cue.text
  let texts ← parseNumberedResponse reply cues.length
    (some (multilineIndices (extracted.map Prod.fst)))
  restoreCues 0 texts (extracted.map Prod.snd)

def translateRequest (batch : Batch) (hints : Option (Dict ℕ Terms)) (glossary : Option (List Str))
    (register correctionDirective : Option Str) : TranslateRequest where
  texts := batch.cues.map fun cue => (extractSentinels cue.text).1
  contextBefore := batch.contextBefore.map SubLine.text
  contextAfter := batch.contextAfter.map SubLine.text
  pronounHints := hints
  glossary := glossary
  register := register
  correctionDirective := correctionDirective

/-- A rejected reply is answered with its defect while attempts are left. -/
def correctionLoop (call : ℕ → List Message → Except PyError Str) (cues : List SubLine) :
    ℕ → ℕ → List Message → Called (List Str)
  | 0, attempt, _ => ⟨.error (.batchValidation .exhausted), attempt, []⟩
  | remaining + 1, attempt, messages =>
    match call attempt messages with
    | .error err => ⟨.error err, attempt + 1, [err]⟩
    | .ok reply =>
      match decodeReply cues reply with
      | .ok texts => ⟨.ok texts, attempt + 1, []⟩
      | .error (.batchValidation defect) =>
        if remaining = 0 then ⟨.error (.batchValidation defect), attempt + 1, []⟩
        else correctionLoop call cues remaining (attempt + 1)
          (messages ++ [.assistant reply, .correction defect cues.length])
      | .error err => ⟨.error err, attempt + 1, []⟩

def attempts (settings : TrezarrSettings) : ℕ := (settings.translateBatchRetryAttempts + 1).toNat

def translateBatch (llm : LLMClient) (site : CallSite) (settings : TrezarrSettings) (batch : Batch)
    (hints : Option (Dict ℕ Terms)) (glossary : Option (List Str))
    (register correctionDirective : Option Str) : Called (List Str) :=
  correctionLoop (llm.call site) batch.cues (attempts settings) 0
    [.translate (translateRequest batch hints glossary register correctionDirective)]

/-- A correction that repeats the review's own scaffolding is dropped. -/
def rejectScaffoldedCorrection (corrected fallback : Str) : Str :=
  if found reviewScaffoldRe corrected then fallback else corrected

def reviewRequest (batch : Batch) (sourceLinesByIndex : Dict Str SubLine)
    (resolvedMap : Dict Pair Terms) (bible : SeriesBibleDTO) : ReviewRequest where
  sourceTexts := batch.cues.map fun cue =>
    ((sourceLinesByIndex.get? cue.index).map SubLine.text).getD []
  translatedTexts := batch.cues.map fun cue => (extractSentinels cue.text).1
  resolvedMap := resolvedMap
  bible := bible
  dominantPair := batch.dominantPair

def decodeReview (cues : List SubLine) (reply : Str) : Except PyError (List Str) := do
  let extracted := cues.map fun cue => extractSentinels cue.text
  let cleaned := extracted.map Prod.fst
  let texts ← parseNumberedResponse reply cues.length (some (multilineIndices cleaned))
  restoreCues 0 (List.zipWith rejectScaffoldedCorrection texts cleaned) (extracted.map Prod.snd)

/-- Whatever goes wrong, there is no correction. -/
def reviewBatch (llm : LLMClient) (site : CallSite) (batch : Batch)
    (sourceLinesByIndex : Dict Str SubLine) (resolvedMap : Dict Pair Terms)
    (bible : SeriesBibleDTO) : Option (List Str) :=
  let request := reviewRequest batch sourceLinesByIndex resolvedMap bible
  ((llm.call site 0 [.review request]).bind (decodeReview batch.cues)).toOption

end Trezarr
