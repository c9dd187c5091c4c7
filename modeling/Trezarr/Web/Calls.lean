import Trezarr.Lib.Runs
import Trezarr.Web.Jobs

/-! The calls that fill the work queue, the tasks it feeds, and every order of their awaits. -/
namespace Trezarr.Web
open Text

/-- A call of `enqueue_job` or of `retry_job` between two of its awaits. -/
inductive Call
  /-- No active job of the path was seen. -/
  | deduped (sourcePath : Str) (seriesId : Option ℤ) (trigger : Str)
      (mediaItem : Option MediaItemSnapshot) (maxAutoAttempts : Option ℤ)
  /-- Nor too many that had failed. -/
  | admitted (sourcePath : Str) (seriesId : Option ℤ) (trigger : Str)
      (mediaItem : Option MediaItemSnapshot)
  | inserted (jobId : ℕ) (sourcePath : Str) (trigger : JobTrigger)
  /-- The job was seen as failed or quarantined. -/
  | retriable (jobId : ℕ)
  | putting (jobId : Option ℕ)
  deriving DecidableEq, Repr

/-- A daemon with its calls, and the tasks that have not marked their jobs as running. -/
structure Process extends Daemon where
  calls : List Call := []
  dispatched : List ℕ := []

/-- A new process reconciles before it serves anything. -/
def Process.start (d : Daemon) (ledger : LedgerSqla) : Process := { startup d ledger with }

/-- The steps of the calls and the tasks; a call goes on wherever it stands. -/
inductive ProcessOp
  | dedup (sourcePath : Str) (seriesId : Option ℤ) (trigger : Str)
      (mediaItem : Option MediaItemSnapshot) (maxAutoAttempts : Option ℤ)
  | countTerminal (call : Call)
  | insert (call : Call)
  | find (call : Call)
  | put (call : Call)
  | readJob (jobId : ℕ)
  | resetJob (call : Call)
  | dispatch
  | markRunning (jobId : ℕ)
  | settleJob (jobId : ℕ) (result : Outcome)
  | failJob (jobId : ℕ)
  | leaveJob (jobId : ℕ)

namespace ProcessOp

/-- The call has come to its next await, or to its end. -/
def advance (p : Process) (call : Call) (next : Option Call) : Process :=
  { p with calls := p.calls.erase call ++ next.toList }

def step (p : Process) : ProcessOp → Process
  | .dedup sourcePath seriesId trigger mediaItem maxAutoAttempts =>
    if jobsIn p.jobs sourcePath activeStatuses ≠ [] then p
    else
      { p with
        calls := p.calls ++ [.deduped sourcePath seriesId trigger mediaItem maxAutoAttempts] }
  | .countTerminal call =>
    if call ∉ p.calls then p
    else match call with
      | .deduped sourcePath seriesId trigger mediaItem maxAutoAttempts =>
        if attemptsExhausted p.jobs sourcePath trigger maxAutoAttempts then advance p call none
        else advance p call (some (.admitted sourcePath seriesId trigger mediaItem))
      | _ => p
  | .insert call =>
    if call ∉ p.calls then p
    else match call with
      | .admitted sourcePath seriesId trigger mediaItem =>
        match JobTrigger.ofName trigger with
        | none => advance p call none
        | some trigger =>
          let (job, jobs) := p.jobs.insert
            { id := 0, sourcePath, seriesId, trigger
              mediaItemJson := mediaItem.bind MediaItemSnapshot.json }
          advance { p with jobs := jobs } call (some (.inserted job.id sourcePath trigger))
      | _ => p
  | .find call =>
    if call ∉ p.calls then p
    else match call with
      | .inserted _ sourcePath trigger =>
        advance p call (some (.putting ((waitingJob p.jobs sourcePath trigger).map Job.id)))
      | _ => p
  | .put call =>
    if call ∉ p.calls then p
    else match call with
      | .putting jobId =>
        advance { p with workQueue := p.workQueue ++ jobId.toList } call none
      | _ => p
  | .readJob jobId =>
    match p.jobs.get? jobId with
    | none => p
    | some job =>
      if job.status ∈ retriableStatuses then { p with calls := p.calls ++ [.retriable jobId] }
      else p
  | .resetJob call =>
    if call ∉ p.calls then p
    else match call with
      | .retriable jobId =>
        match p.jobs.get? jobId with
        | none => advance p call none
        | some job =>
          let reset : Job :=
            { job with status := .queued, errorReason := none, attempts := 0, trigger := .manualRetry }
          advance { p with jobs := p.jobs.put reset } call (some (.putting (some jobId)))
      | _ => p
  | .dispatch =>
    match p.workQueue with
    | [] => p
    | jobId :: rest => { p with workQueue := rest, dispatched := p.dispatched ++ [jobId] }
  | .markRunning jobId =>
    if jobId ∉ p.dispatched then p
    else
      let taken := { p with dispatched := p.dispatched.erase jobId }
      match p.jobs.get? jobId with
      | none => taken
      | some job =>
        { taken with
          jobs := p.jobs.put (startedJob job), executions := p.executions ++ [⟨jobId, false⟩] }
  | .settleJob jobId result =>
    { p with toDaemon := DaemonOp.step p.toDaemon (.settleJob jobId result) }
  | .failJob jobId => { p with toDaemon := DaemonOp.step p.toDaemon (.failJob ⟨jobId, false⟩) }
  | .leaveJob jobId => { p with toDaemon := DaemonOp.step p.toDaemon (.leaveJob ⟨jobId, true⟩) }

end ProcessOp
end Trezarr.Web
