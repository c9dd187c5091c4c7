import Trezarr.Translate.Gate

/-! The passes between a source document and the gate. -/
namespace Trezarr
open Text Fallible

/-- Which failing tasks of a group end before the others are cancelled, in that order, and how
many calls a cancelled task had made. -/
structure Schedule where
  failed : List ℕ
  callsOf : ℕ → ℕ

/-- The results of a group of tasks, or what the tasks that were not cancelled raised. A call that
is cancelled does not fail. -/
structure Gathered (α : Type) where
  result : Except (List PyError) (List α)
  calls : ℕ
  failures : List PyError

def errorOf {α : Type} (task : Called α) : Option PyError :=
  match task.result with
  | .ok _ => none
  | .error err => some err

/-- At least one task that fails is not cancelled. -/
def uncancelled (schedule : Schedule) (failing : List ℕ) : List ℕ :=
  let ended := schedule.failed.filter (· ∈ failing)
  if ended = [] then failing else ended

def gather {α : Type} (schedule : Schedule) (tasks : List (Called α)) : Gathered α :=
  match tasks.mapM Called.result with
  | .ok results => ⟨.ok results, (tasks.map Called.calls).sum, tasks.flatMap Called.failures⟩
  | .error _ =>
    let failing := (tasks.zipIdx.filter fun (task, _) => (errorOf task).isSome).map Prod.snd
    let ended := uncancelled schedule failing
    { result := .error (ended.filterMap fun i => tasks[i]?.bind errorOf)
      calls := (tasks.zipIdx.map fun (task, i) =>
        if i ∈ ended then task.calls else min (schedule.callsOf i) task.calls).sum
      failures := ended.flatMap fun i => (tasks[i]?.map Called.failures).getD [] }

/-- The attributions of a batch are the next ones of the document. -/
def perBatchHints (ctx : Context) (bible : SeriesBibleDTO) :
    List LineAttribution → List Batch → List (Option (Dict ℕ Terms))
  | _, [] => []
  | attrs, batch :: batches =>
    hintsOf (nameToId bible) ctx.resolvedMap ((attrs.take batch.cues.length).map some) ::
      perBatchHints ctx bible (attrs.drop batch.cues.length) batches

def batchHints (ctx : Context) (batches : List Batch) : List (Option (Dict ℕ Terms)) :=
  match ctx.bible with
  | some bible =>
    if ctx.resolvedMap.entries = [] then batches.map fun _ => none
    else perBatchHints ctx bible ctx.flatAttributions batches
  | none => batches.map fun _ => none

/-- Pass 3: every batch is a task of one group. -/
def translateBatches (llm : LLMClient) (settings : TrezarrSettings) (ctx : Context)
    (batches : List Batch) : List (Called (List Str)) :=
  (batches.zip (batchHints ctx batches)).zipIdx.map fun ((batch, hints), i) =>
    translateBatch llm (.pass3 i) settings batch hints ctx.glossary ctx.register none

/-- The translated document, while the queue of texts lasts. -/
def assemble (source : SubDoc) (results : List (List Str)) : Except PyError SubDoc :=
  match assembleLines source.lines results.flatten with
  | none => .error .stopIteration
  | some (lines, _) => .ok { withLines source lines with encoding := "utf-8" }

def countPairs (ctx : Context) (bible : SeriesBibleDTO) (attrs : List LineAttribution) :
    Dict Pair ℕ :=
  attrs.foldl (fun counts attr =>
    match attributedPair bible attr with
    | some pair =>
      if pair ∈ ctx.resolvedMap.keys then
        counts.set pair ((counts.get? pair).getD 0 + 1)
      else counts
    | none => counts) Dict.empty

/-- The first of the most frequent pairs. -/
def mostFrequent (counts : Dict Pair ℕ) : Option Pair :=
  (counts.entries.foldl (fun best entry =>
    match best with
    | some (_, n) => if n < entry.2 then some entry else best
    | none => some entry) none).map Prod.fst

def stampPairs (ctx : Context) (bible : SeriesBibleDTO) :
    List LineAttribution → List Batch → List Batch
  | _, [] => []
  | attrs, batch :: batches =>
    { batch with
      dominantPair := mostFrequent (countPairs ctx bible (attrs.take batch.cues.length)) } ::
      stampPairs ctx bible (attrs.drop batch.cues.length) batches

def sourceLinesByIndex (source : SubDoc) : Dict Str SubLine :=
  Dict.ofList (source.lines.map fun line => (line.index, line))

/-- Pass 4 runs when the series is known; it never fails for what the model does. -/
def selfReview (llm : LLMClient) (settings : TrezarrSettings) (ctx : Context)
    (source translated : SubDoc) : Except PyError SubDoc :=
  match ctx.bible with
  | none => .ok translated
  | some bible =>
    if !settings.enableSelfReview then .ok translated
    else do
      let batches ← batchSubdoc translated settings settings.selfReviewContextLinesK
        settings.selfReviewMaxCuesPerBatch
      let batches := if ctx.flatAttributions = [] then batches
        else stampPairs ctx bible ctx.flatAttributions batches
      let results := batches.zipIdx.map fun (batch, i) =>
        reviewBatch llm (.review i) batch (sourceLinesByIndex source) ctx.resolvedMap bible
      match spliceReviewCorrections translated.lines batches results with
      | none => .error .stopIteration
      | some lines => .ok (withLines translated lines)

end Trezarr
