import Trezarr.Bible.Metadata
import Trezarr.Cli

/-! The job table, the work queue over it, and every transaction that writes a job's status. -/
namespace Trezarr.Web
open Text

inductive JobStatus
  | queued
  | running
  | done
  | failed
  | quarantined
  deriving DecidableEq, Repr

def JobStatus.name : JobStatus → Str
  | .queued => "queued"
  | .running => "running"
  | .done => "done"
  | .failed => "failed"
  | .quarantined => "quarantined"

/-- The origins a CHECK constraint admits. -/
inductive JobTrigger
  | poll
  | webhook
  | manual
  | manualRetry
  | startupReconcile
  | autoRetry
  deriving DecidableEq, Repr

def JobTrigger.name : JobTrigger → Str
  | .poll => "poll"
  | .webhook => "webhook"
  | .manual => "manual"
  | .manualRetry => "manual-retry"
  | .startupReconcile => "startup-reconcile"
  | .autoRetry => "auto-retry"

def JobTrigger.ofName (s : Str) : Option JobTrigger :=
  [poll, webhook, manual, manualRetry, startupReconcile, autoRetry].find? (·.name = s)

/-- The fields of a discovered item that are kept with its job. -/
structure MediaItemSnapshot where
  arrKind : Option Str := none
  seriesId : Option ℤ := none
  tvdbId : Option ℤ := none
  tmdbId : Option ℤ := none
  title : Option Str := none
  seasonNumber : Option ℤ := none
  sourceType : Option Str := none
  arrMetadata : Option ArrMetadata := none
  deriving DecidableEq, Repr

/-- A snapshot without any field is no snapshot. -/
def MediaItemSnapshot.json (item : MediaItemSnapshot) : Option MediaItemSnapshot :=
  if item = {} then none else some item

structure Job where
  id : ℕ
  sourcePath : Str
  seriesId : Option ℤ := none
  status : JobStatus := .queued
  trigger : JobTrigger
  errorReason : Option Str := none
  attempts : ℕ := 0
  mediaItemJson : Option MediaItemSnapshot := none
  deriving DecidableEq, Repr

instance : Keyed Job := ⟨Job.id, fun n r => { r with id := n }, fun _ _ => rfl⟩

/-- An execution between its first transaction and its last. -/
structure Execution where
  jobId : ℕ
  settled : Bool := false
  deriving DecidableEq, Repr

/-- The job table, and the memory of the process that works on it. -/
structure Daemon where
  jobs : Table Job := Table.empty
  workQueue : List ℕ := []
  executions : List Execution := []

inductive JobError
  | integrityError
  deriving DecidableEq, Repr

structure HTTPException where
  statusCode : ℕ
  detail : Str
  deriving DecidableEq, Repr

def activeStatuses : List JobStatus := [.queued, .running]

def terminalStatuses : List JobStatus := [.failed, .quarantined]

def retriableStatuses : List JobStatus := [.failed, .quarantined]

def autoTriggers : List Str := ["poll", "webhook", "auto-retry"]

def jobsIn (jobs : Table Job) (sourcePath : Str) (statuses : List JobStatus) : List Job :=
  jobs.select fun job => job.sourcePath = sourcePath ∧ job.status ∈ statuses

/-- An automatic trigger stops at a number of failed and quarantined jobs of the path. -/
def attemptsExhausted (jobs : Table Job) (sourcePath trigger : Str) (maxAutoAttempts : Option ℤ) :
    Bool :=
  match maxAutoAttempts with
  | none => false
  | some cap =>
    trigger ∈ autoTriggers && cap ≤ ((jobsIn jobs sourcePath terminalStatuses).length : ℤ)

/-- The job of the path that is waiting, for whoever has just inserted it. -/
def waitingJob (jobs : Table Job) (sourcePath : Str) (trigger : JobTrigger) : Option Job :=
  (jobsIn jobs sourcePath [.queued]).find? (·.trigger = trigger)

def enqueueJob (d : Daemon) (sourcePath : Str) (seriesId : Option ℤ) (trigger : Str)
    (mediaItem : Option MediaItemSnapshot) (maxAutoAttempts : Option ℤ) :
    Except JobError (Bool × Daemon) :=
  if jobsIn d.jobs sourcePath activeStatuses ≠ [] then .ok (false, d)
  else if attemptsExhausted d.jobs sourcePath trigger maxAutoAttempts then .ok (false, d)
  else
    match JobTrigger.ofName trigger with
    | none => .error .integrityError
    | some trigger =>
      let (_, jobs) := d.jobs.insert
        { id := 0, sourcePath, seriesId, trigger
          mediaItemJson := mediaItem.bind MediaItemSnapshot.json }
      let waiting := (waitingJob jobs sourcePath trigger).toList.map Job.id
      .ok (true, { d with jobs := jobs, workQueue := d.workQueue ++ waiting })

/-- A failed or quarantined job is queued again as it was. -/
def retryJob (d : Daemon) (jobId : ℕ) : Except HTTPException Daemon :=
  match d.jobs.get? jobId with
  | none => .error ⟨404, "Job not found"⟩
  | some job =>
    if job.status ∉ retriableStatuses then
      .error ⟨409, ("Job is not in a retriable state (current status: '" : Str) ++
        job.status.name ++ ("')" : Str)⟩
    else
      let reset : Job :=
        { job with status := .queued, errorReason := none, attempts := 0, trigger := .manualRetry }
      .ok { d with jobs := d.jobs.put reset, workQueue := d.workQueue ++ [jobId] }

/-- What a crashed process left waiting or running waits again. -/
def reconcileInProgress (d : Daemon) : Daemon :=
  let staleJobs := d.jobs.select fun job => job.status ∈ activeStatuses
  { d with
    jobs := staleJobs.foldl (fun jobs job => jobs.put { job with status := .queued }) d.jobs
    workQueue := d.workQueue ++ staleJobs.map Job.id }

/-- `int` of a text of digits, with or without a sign. -/
def intOf (text : Str) : Option ℤ :=
  let natural (digits : Str) : Option ℤ :=
    if digits ≠ [] && digits.all isDigit then (pyInt digits).toOption.map (↑) else none
  match strip text with
  | '-' :: digits => (natural digits).map (- ·)
  | '+' :: digits => natural digits
  | digits => natural digits

def reconcileEntry (d : Daemon) (pf : LedgerEntry) : Daemon :=
  if jobsIn d.jobs pf.sourcePath [.queued, .running, .done, .failed, .quarantined] ≠ [] then d
  else
    match enqueueJob d pf.sourcePath (pf.seriesId.bind intOf) "startup-reconcile" none none with
    | .ok (_, d) => d
    | .error _ => d

/-- A file the ledger has in progress and no job knows of is queued. -/
def reconcileInProgressFromLedger (d : Daemon) (ledger : LedgerSqla) : Daemon :=
  (ledger.processedFile.filter (·.status = .inProgress)).foldl reconcileEntry d

/-- A new process has the table only; both reconciliations come before anything else. -/
def startup (d : Daemon) (ledger : LedgerSqla) : Daemon :=
  reconcileInProgressFromLedger (reconcileInProgress { jobs := d.jobs }) ledger

/-- What an execution is told of its item, the error as text. -/
structure Outcome where
  status : ItemStatus
  error : Option Str := none
  reason : Option Str := none
  deriving DecidableEq, Repr

def orElseText (text : Option Str) (fallback : Str) : Str :=
  if text.getD [] = [] then fallback else text.getD []

/-- How a job ends: a skipped item was processed before. -/
def settledJob (job : Job) (result : Outcome) : Job :=
  match result.status with
  | .done => { job with status := .done }
  | .quarantined =>
    { job with
      status := .quarantined
      errorReason := some (orElseText result.reason "quarantined by translation pipeline") }
  | .skipped => { job with status := .done }
  | .error =>
    { job with
      status := .failed
      errorReason := some (result.error.getD "unknown error") }

def onJob (d : Daemon) (jobId : ℕ) (f : Job → Job) : Daemon :=
  match d.jobs.get? jobId with
  | none => d
  | some job => { d with jobs := d.jobs.put (f job) }

def startedJob (job : Job) : Job := { job with status := .running, attempts := job.attempts + 1 }

def crashedJob (job : Job) : Job :=
  { job with status := .failed, errorReason := some "unhandled exception in worker" }

/-- An execution takes its three steps at its own pace: it fetches its job, settles it, and where
anything was raised, before or after, marks it as failed; either of the first and last may be
lost to an error of the database. -/
inductive DaemonOp
  | enqueueJob (sourcePath : Str) (seriesId : Option ℤ) (trigger : Str)
      (mediaItem : Option MediaItemSnapshot) (maxAutoAttempts : Option ℤ)
  | retryJob (jobId : ℕ)
  | startup (ledger : LedgerSqla)
  | fetchJob (jobId : ℕ) (commits : Bool)
  | settleJob (jobId : ℕ) (result : Outcome)
  | failJob (execution : Execution)
  | leaveJob (execution : Execution)

namespace DaemonOp

def step (d : Daemon) : DaemonOp → Daemon
  | .enqueueJob sourcePath seriesId trigger mediaItem maxAutoAttempts =>
    match Web.enqueueJob d sourcePath seriesId trigger mediaItem maxAutoAttempts with
    | .ok (_, d) => d
    | .error _ => d
  | .retryJob jobId => (Web.retryJob d jobId).toOption.getD d
  | .startup ledger => Web.startup d ledger
  | .fetchJob jobId commits =>
    if jobId ∉ d.workQueue then d
    else
      let taken := { d with workQueue := d.workQueue.erase jobId }
      match d.jobs.get? jobId with
      | none => taken
      | some job =>
        let executing := { taken with executions := taken.executions ++ [⟨jobId, false⟩] }
        if commits then { executing with jobs := d.jobs.put (startedJob job) } else executing
  | .settleJob jobId result =>
    if ⟨jobId, false⟩ ∉ d.executions then d
    else
      onJob { d with executions := d.executions.erase ⟨jobId, false⟩ ++ [⟨jobId, true⟩] } jobId
        (settledJob · result)
  | .failJob execution =>
    if execution ∉ d.executions then d
    else
      onJob { d with executions := d.executions.erase execution } execution.jobId crashedJob
  | .leaveJob execution => { d with executions := d.executions.erase execution }

end DaemonOp
end Trezarr.Web
