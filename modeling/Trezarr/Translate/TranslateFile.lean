import Trezarr.Bible.Analyze
import Trezarr.Subtitles.Dispatch
import Trezarr.Translate.Decision
import Trezarr.Translate.Passes

/-! One source file through the pipeline: decision, passes, gate, sidecar and ledger. -/
namespace Trezarr
open Text Fallible LedgerProtocol

inductive Reason
  | read (err : ReadError)
  | batching (err : PyError)
  | analysis (err : BibleAnalysisError)
  | batch (defect : BatchDefect)
  | gate (reason : GateReason)
  deriving DecidableEq, Repr

inductive TranslationResult
  | skipped
  | quarantined (quarantinePath : Path) (reason : Reason)
  | done (outputPath : Path)
  deriving DecidableEq, Repr

structure Artifact where
  reason : Reason
  failingCueIndices : List ℕ
  timestamp : Str
  sourcePath : Path
  deriving DecidableEq, Repr

/-- What runs leave behind: files, ledger and quarantine artifacts. -/
structure World (L : Type) where
  fs : FileSystem
  ledger : L
  artifacts : Path → Option Artifact

/-- How the passes before translation end, for the document they are given. -/
inductive Analysis
  | bypassed
  | ready (ctx : Context)
  | failed (err : BibleAnalysisError)
  | raised (err : PyError)

/-- Where a run meets a failing disk. -/
structure Faults where
  quarantine : Option OSError := none
  sidecar : Option OSError := none

/-- Everything a run reads besides the world. -/
structure Env where
  codecs : Codecs
  contentHash : Bytes → Str
  settings : TrezarrSettings
  llm : LLMClient
  analyze : SubDoc → Analysis
  analysisFailures : SubDoc → List PyError := fun _ => []
  schedule : Schedule
  faults : Faults := {}
  seriesId : Option Str := none
  now : Str := []

inductive RunError
  | decision (err : DecisionError)
  | python (err : PyError)
  | os (err : OSError)
  | ledger (err : Rows.QueryError)
  /-- The writer finds no envelope of its format, or a slot without a cue. -/
  | unwritable
  deriving DecidableEq, Repr

/-- The world a run leaves, what it returns or raises, and what it did on the way. -/
structure Run (L : Type) where
  world : World L
  outcome : Except RunError TranslationResult
  sidecar : Option SubDoc := none
  /-- The directory entry the sidecar was renamed over. -/
  replaced : Option Path := none
  pass3Calls : ℕ := 0
  repairCalls : List ℕ := []
  /-- What the endpoint raised before the review and after it. -/
  failures : List PyError := []

def defectsOf (errors : List PyError) : List BatchDefect :=
  errors.filterMap fun err => match err with
    | .batchValidation defect => some defect
    | _ => none

def othersOf (errors : List PyError) : List PyError :=
  errors.filter fun err => match err with
    | .batchValidation _ => false
    | _ => true

/-- Step 8, once every batch has its texts: assembled, reviewed and wrapped again. -/
def prepare (env : Env) (ctx : Context) (source : SubDoc) (results : List (List Str)) :
    Except PyError SubDoc := do
  let translated ← assemble source results
  let reviewed ← selfReview env.llm env.settings ctx source translated
  return preserveSourceEnvelopes reviewed source env.settings

section Steps

variable {L : Type} [LedgerProtocol L] (env : Env) (job : Job) (w : World L)

def raise (err : RunError) : Run L := { world := w, outcome := .error err }

def recordEntry (entry : LedgerEntry) (result : TranslationResult) : Run L :=
  match record w.ledger entry with
  | .error err => raise w (.ledger err)
  | .ok ledger => { world := { w with ledger := ledger }, outcome := .ok result }

def quarantinePath : Path :=
  ⟨env.settings.translateQuarantineDir.rdropWhile (· = '/') ++ "/" ++ job.path.stem ++ ".json"⟩

/-- The artifact comes first; without it the entry stays in progress. -/
def quarantine (reason : Reason) (failing : List ℕ) : Run L :=
  match env.faults.quarantine with
  | some err => raise w (.os err)
  | none =>
    let path := quarantinePath env job
    let artifact : Artifact := ⟨reason, failing, env.now, job.path⟩
    let w := { w with artifacts := fun p => if p = path then some artifact else w.artifacts p }
    recordEntry w
      { sourcePath := job.path.str
        outputPath := none
        status := .quarantined
        contentHash := job.contentHash
        quarantinePath := some path.str }
      (.quarantined path reason)

/-- The temporary file is renamed over the sidecar, so a failed write leaves it alone; a sidecar
that is a link is replaced itself. -/
def writeViSidecar (doc : SubDoc) : Except RunError (World L) :=
  match env.faults.sidecar with
  | some err => .error (.os err)
  | none =>
    match (Format.ofSuffix job.dest.suffix).bind
      fun format => format.write { doc with encoding := "utf-8" } with
    | none => .error .unwritable
    | some text => .ok { w with fs := w.fs.replace job.dest ⟨encodeUtf8 text, .trezarr, none⟩ }

def finish (doc : SubDoc) : Run L :=
  match writeViSidecar env job w doc with
  | .error err => { raise w err with sidecar := some doc }
  | .ok w' =>
    { recordEntry w'
        { sourcePath := job.path.str
          outputPath := some job.dest.str
          status := .done
          contentHash := job.contentHash
          seriesId := env.seriesId
          translatedAt := some env.now }
        (.done job.dest) with
      sidecar := some doc
      replaced := some (w.fs.entry job.dest) }

/-- Steps 9 to 12. -/
def deliver (ctx : Context) (source : SubDoc) (results : List (List Str)) : Run L :=
  match prepare env ctx source results with
  | .error err => raise w (.python err)
  | .ok translated =>
    let gated := (gateOf env.llm source env.settings ctx).loop
      env.settings.gateRepairMaxAttempts.toNat 0 translated
    match gated.outcome with
    | .accepted doc =>
      { finish env job w doc with repairCalls := gated.repairCalls, failures := gated.failures }
    | .raised err =>
      { raise w (.python err) with repairCalls := gated.repairCalls, failures := gated.failures }
    | .rejected failure =>
      { quarantine env job w (.gate failure.reason) (failure.failingIndices.getD []) with
        repairCalls := gated.repairCalls, failures := gated.failures }

/-- Rejected replies quarantine the file; any other error goes on to the caller, after that. -/
def failBatches (errors : List PyError) : Run L :=
  match defectsOf errors with
  | [] => raise w (.python (errors.head?.getD .indexError))
  | defect :: _ =>
    let run := quarantine env job w (.batch defect) []
    match run.outcome, othersOf errors with
    | .ok _, err :: _ => { run with outcome := .error (.python err) }
    | _, _ => run

def translate (source : SubDoc) (batches : List Batch) (ctx : Context) : Run L :=
  let gathered := gather env.schedule (translateBatches env.llm env.settings ctx batches)
  match gathered.result with
  | .error errors =>
    { failBatches env job w errors with
      pass3Calls := gathered.calls, failures := gathered.failures }
  | .ok results =>
    let run := deliver env job w ctx source results
    { run with pass3Calls := gathered.calls, failures := gathered.failures ++ run.failures }

def afterAnalysis (source : SubDoc) (batches : List Batch) : Analysis → Run L
  | .bypassed => translate env job w source batches {}
  | .ready ctx => translate env job w source batches ctx
  | .failed err => quarantine env job w (.analysis err) []
  | .raised err => raise w (.python err)

def analyzeAndTranslate (source : SubDoc) (batches : List Batch) : Run L :=
  let run := afterAnalysis env job w source batches (env.analyze source)
  { run with failures := env.analysisFailures source ++ run.failures }

/-- Steps 5 and 6: a source that cannot be read or packed is quarantined. -/
def readAndTranslate : Run L :=
  match readSubtitle env.codecs w.fs job.path with
  | .error err => quarantine env job w (.read err) []
  | .ok source =>
    match batchSubdoc source env.settings env.settings.translateContextLinesK
      env.settings.translateMaxCuesPerBatch with
    | .error err => quarantine env job w (.batching err) []
    | .ok batches => analyzeAndTranslate env job w source batches

/-- Step 4: the entry is in progress from here on. -/
def start : Run L :=
  match record w.ledger
    { sourcePath := job.path.str
      outputPath := some job.dest.str
      status := .inProgress
      contentHash := job.contentHash } with
  | .error err => raise w (.ledger err)
  | .ok ledger => readAndTranslate env job { w with ledger := ledger }

end Steps

def translateFile {L : Type} [LedgerProtocol L] (env : Env) (path : Path) (w : World L) : Run L :=
  match decisionTable env.contentHash w.fs w.ledger path with
  | .error err => raise w (.decision err)
  | .ok none => { world := w, outcome := .ok .skipped }
  | .ok (some job) => start env job w

/-- One cue of one episode, and an endpoint that is down. -/
def oneEpisode : World Ledger where
  fs := .linking ⟨"/link"⟩ ⟨"/link"⟩ fun p =>
    if p = ⟨"/tv/E01.en.srt"⟩ then
      some { content := encodeUtf8 "1\n00:00:01,000 --> 00:00:02,000\nHi.\n", writer := .other }
    else none
  ledger := Ledger.empty
  artifacts _ := none

def endpointDown : Env where
  codecs := ⟨fun _ => none, fun _ _ => []⟩
  contentHash _ := "e3b0"
  settings := {}
  llm := ⟨fun _ _ _ => .error (.apiError "503")⟩
  analyze _ := .bypassed
  schedule := ⟨[], fun _ => 0⟩

end Trezarr
