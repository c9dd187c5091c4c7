import Trezarr.Bible.MergeAnalysis
import Trezarr.Translate.Attribute
import Trezarr.Translate.TranslateFile

/-! The passes before translation when the series is known: analysis, attribution, reconciliation. -/
namespace Trezarr
open Text

/-- The structured side of the endpoint. -/
structure SeriesClient where
  mode : Str
  analysis : StructuredCalls AnalysisRequest BibleAnalysis
  attribution : StructuredCalls AttributionRequest BatchAttribution

/-- The item of a run, the store of its series, and how the calls to store and endpoint go. -/
structure SeriesRun where
  store : Store
  arrKind : Str := "sonarr"
  arrSeriesId : ℤ := 0
  arrMetadata : ArrMetadata := {}
  episodeKey : Str
  client : SeriesClient
  down : MergeCall → Bool
  schedule : Schedule
  order : SetOrder

/-- The store after the passes, how they ended and what the endpoint raised in them. -/
structure SeriesPasses where
  store : Store
  analysis : Analysis
  failures : List PyError := []

namespace SeriesRun

variable (run : SeriesRun) (settings : TrezarrSettings) (source : SubDoc)

/-- Pass 2: every batch is a task of one group. -/
def attributions (bible : SeriesBibleDTO) : Gathered (List LineAttribution) :=
  if !settings.enableAttribution then ⟨.ok [], 0, []⟩
  else
    match batchSubdoc source settings settings.attributeContextLinesK
      settings.attributeMaxCuesPerBatch with
    | .error err => ⟨.error [err], 0, []⟩
    | .ok batches => gather run.schedule (batches.zipIdx.map fun (batch, i) =>
        attributeBatch run.client.mode run.client.attribution i batch bible settings)

def reconcile (s : Store) (series : Series) (failures : List PyError) : SeriesPasses :=
  match loadSeriesBible s series.id with
  | .error err => ⟨s, .raised (.store err), failures⟩
  | .ok bible =>
    let attributed := run.attributions settings source bible
    let failures := failures ++ attributed.failures
    match attributed.result with
    | .error errors => ⟨s, .raised (errors.head?.getD .indexError), failures⟩
    | .ok results =>
      match reconcileAttributions run.order results.flatten bible run.episodeKey settings s
        series.id with
      | (s, .error err) => ⟨s, .raised (.store err), failures⟩
      | (s, .ok resolvedMap) =>
        ⟨s, .ready { bible := some bible, resolvedMap, flatAttributions := results.flatten },
          failures⟩

/-- Only an error of the analysis itself quarantines. -/
def passes : SeriesPasses :=
  match getOrCreateSeries run.store run.arrKind run.arrSeriesId run.arrMetadata with
  | .error err => ⟨run.store, .raised (.store err), []⟩
  | .ok (series, s) =>
    match loadSeriesBible s series.id with
    | .error err => ⟨s, .raised (.store err), []⟩
    | .ok bible =>
      let analyzed := analyzeFile run.client.mode run.client.analysis source bible run.arrMetadata
        settings run.episodeKey
      match analyzed.result with
      | .error (.python err) => ⟨s, .raised err, analyzed.failures⟩
      | .error (.analysis err) => ⟨s, .failed err, analyzed.failures⟩
      | .ok analysis =>
        match mergeBibleAnalysis run.down series.id analysis run.episodeKey settings s with
        | (s, .error err) => ⟨s, .failed err, analyzed.failures⟩
        | (s, .ok _) => run.reconcile settings source s series analyzed.failures

end SeriesRun

/-- A run that knows its series, or is given none. -/
def Env.forSeries (env : Env) : Option SeriesRun → Env
  | none => { env with analyze := fun _ => .bypassed, analysisFailures := fun _ => [] }
  | some run =>
    { env with
      analyze := fun source => (run.passes env.settings source).analysis
      analysisFailures := fun source => (run.passes env.settings source).failures
      seriesId := if run.arrSeriesId = 0 then none
        else some (toString run.arrSeriesId).toList }

end Trezarr
