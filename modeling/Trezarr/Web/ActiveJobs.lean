import Trezarr.Lib.Runs
import Trezarr.Web.Jobs

/-! At most one job of a source path waits or runs, as long as no ended job is taken up again
beside another one. -/
namespace Trezarr.Web
open Text Runs

/-- Every source path has at most one job that is queued or running. -/
def OneActive (jobs : Table Job) : Prop :=
  ∀ sourcePath, (jobsIn jobs sourcePath activeStatuses).length ≤ 1

/-- The ended job an operation makes active again: one that is retried, or one whose id was still
in the queue when it had ended. -/
def reactivated (d : Daemon) : DaemonOp → Option Job
  | .retryJob jobId => (d.jobs.get? jobId).filter (·.status ∈ retriableStatuses)
  | .fetchJob jobId true =>
    if jobId ∈ d.workQueue then (d.jobs.get? jobId).filter (·.status ∉ activeStatuses) else none
  | _ => none

/-- No other job of the path is active when an ended one is taken up again. -/
def Clear (d : Daemon) (op : DaemonOp) : Prop :=
  ∀ job ∈ reactivated d op, jobsIn d.jobs job.sourcePath activeStatuses = []

instance (d : Daemon) (op : DaemonOp) : Decidable (Clear d op) := by
  unfold Clear
  infer_instance

variable {d d' : Daemon} {jobs : Table Job} {job old : Job} {sourcePath trigger : Str}
  {statuses : List JobStatus} {jobId : ℕ}

theorem JobTrigger.ofName_name (origin : JobTrigger) : ofName origin.name = some origin := by
  cases origin <;> decide

theorem length_jobsIn_put (h : jobs.get? job.id = some old) (sourcePath : Str)
    (statuses : List JobStatus) :
    (jobsIn (jobs.put job) sourcePath statuses).length +
        (if old.sourcePath = sourcePath ∧ old.status ∈ statuses then 1 else 0) =
      (jobsIn jobs sourcePath statuses).length +
        (if job.sourcePath = sourcePath ∧ job.status ∈ statuses then 1 else 0) := by
  have hput := Table.length_select_put h
    fun job => decide (job.sourcePath = sourcePath ∧ job.status ∈ statuses)
  simp only [decide_eq_true_eq] at hput
  exact hput

/-- A job that was not active before it is rewritten, or is not after, adds none to its path. -/
theorem OneActive.put (h : OneActive jobs) (hget : jobs.get? job.id = some old)
    (hpath : job.sourcePath = old.sourcePath)
    (hactive : job.status ∈ activeStatuses → old.status ∈ activeStatuses) :
    OneActive (jobs.put job) := by
  intro p
  have hcount := length_jobsIn_put hget p activeStatuses
  have hbefore := h p
  rw [hpath] at hcount
  split at hcount <;> split at hcount
  · omega
  · omega
  · next hold hnew => exact (hold ⟨hnew.1, hactive hnew.2⟩).elim
  · omega

theorem oneActive_put_iff (h : OneActive jobs) (hget : jobs.get? job.id = some old)
    (hpath : job.sourcePath = old.sourcePath) (hactive : job.status ∈ activeStatuses)
    (hended : old.status ∉ activeStatuses) :
    OneActive (jobs.put job) ↔ jobsIn jobs old.sourcePath activeStatuses = [] := by
  have hcount : ∀ p, (jobsIn (jobs.put job) p activeStatuses).length =
      (jobsIn jobs p activeStatuses).length + if old.sourcePath = p then 1 else 0 := by
    intro p
    have hput := length_jobsIn_put hget p activeStatuses
    simpa only [hpath, hended, hactive, and_false, and_true, if_false, Nat.add_zero] using hput
  constructor
  · intro hone
    have hp := hone old.sourcePath
    rw [hcount, if_pos rfl] at hp
    exact List.length_eq_zero_iff.mp (by omega)
  · intro hnone p
    rw [hcount]
    split
    · next hp =>
      rw [← hp, hnone]
      exact Nat.le_refl 1
    · exact h p

theorem OneActive.insert (h : OneActive jobs)
    (hnone : jobsIn jobs job.sourcePath activeStatuses = []) : OneActive (jobs.insert job).2 := by
  intro p
  have hcount := Table.length_select_insert (t := jobs) (a := job)
    fun job => decide (job.sourcePath = p ∧ job.status ∈ activeStatuses)
  simp only [decide_eq_true_eq] at hcount
  change (jobsIn _ p activeStatuses).length = (jobsIn jobs p activeStatuses).length + _ at hcount
  have hpath : (jobs.insert job).1.sourcePath = job.sourcePath := rfl
  rw [hcount, hpath]
  split
  · next hp =>
    rw [← hp.1, hnone]
    exact Nat.le_refl 1
  · exact h p

/-- Without an active job of its path, a new job is the only one of them that waits. -/
theorem jobsIn_insert (hnone : jobsIn jobs job.sourcePath activeStatuses = [])
    (hqueued : job.status = .queued) :
    jobsIn (jobs.insert job).2 job.sourcePath [.queued] = [(jobs.insert job).1] := by
  have hold : jobsIn jobs job.sourcePath [.queued] = [] := by
    rw [jobsIn, Table.select, List.filter_eq_nil_iff] at hnone ⊢
    intro row hrow hwaits
    refine hnone row hrow ?_
    simp only [List.mem_singleton, decide_eq_true_eq] at hwaits ⊢
    exact ⟨hwaits.1, hwaits.2 ▸ List.mem_cons_self⟩
  have hnew : ((jobs.insert job).1.sourcePath = job.sourcePath ∧
      (jobs.insert job).1.status ∈ [JobStatus.queued]) := ⟨rfl, List.mem_singleton.mpr hqueued⟩
  change (jobs.rows ++ [(jobs.insert job).1]).filter _ = _
  rw [List.filter_append]
  change jobsIn jobs job.sourcePath [.queued] ++ _ = _
  rw [hold, List.nil_append, List.filter_singleton, decide_eq_true hnew]
  rfl

/-- A call that queues anything adds one job to a path without active ones, and queues that job. -/
theorem enqueueJob_cases {seriesId : Option ℤ} {mediaItem : Option MediaItemSnapshot}
    {maxAutoAttempts : Option ℤ} {queued : Bool}
    (he : enqueueJob d sourcePath seriesId trigger mediaItem maxAutoAttempts = .ok (queued, d')) :
    d' = d ∨ ∃ job : Job, job.sourcePath = sourcePath ∧ job.status = .queued ∧
      jobsIn d.jobs sourcePath activeStatuses = [] ∧
      JobTrigger.ofName trigger = some job.trigger ∧
      attemptsExhausted d.jobs sourcePath trigger maxAutoAttempts = false ∧
      d' = { d with jobs := (d.jobs.insert job).2, workQueue := d.workQueue ++ [d.jobs.nextId] } := by
  unfold enqueueJob at he
  split at he
  · cases he
    exact Or.inl rfl
  · next hnone =>
    split at he
    · cases he
      exact Or.inl rfl
    · next hattempts =>
      split at he
      · cases he
      · next origin horigin =>
        have hd := congrArg Prod.snd (Except.ok.inj he)
        generalize hnew : ({ id := 0, sourcePath, seriesId, trigger := origin
                             mediaItemJson := mediaItem.bind MediaItemSnapshot.json } : Job) = job at hd
        have hpath : job.sourcePath = sourcePath := by rw [← hnew]
        have hqueued : job.status = .queued := by rw [← hnew]
        have htrigger : job.trigger = origin := by rw [← hnew]
        have hwaiting : waitingJob (d.jobs.insert job).2 sourcePath origin =
            some (d.jobs.insert job).1 := by
          rw [waitingJob, ← hpath, jobsIn_insert (hpath ▸ not_not.mp hnone) hqueued]
          exact List.find?_cons_of_pos (decide_eq_true htrigger)
        refine Or.inr ⟨job, hpath, hqueued, not_not.mp hnone, htrigger ▸ horigin,
          Bool.eq_false_of_not_eq_true hattempts, hd.symm.trans ?_⟩
        change ({ d with
          jobs := (d.jobs.insert job).2
          workQueue := d.workQueue ++
            (waitingJob (d.jobs.insert job).2 sourcePath origin).toList.map Job.id } : Daemon) = _
        rw [hwaiting]
        rfl

theorem enqueueJob_oneActive {seriesId : Option ℤ} {mediaItem : Option MediaItemSnapshot}
    {maxAutoAttempts : Option ℤ} {queued : Bool} (h : OneActive d.jobs)
    (he : enqueueJob d sourcePath seriesId trigger mediaItem maxAutoAttempts = .ok (queued, d')) :
    OneActive d'.jobs := by
  obtain rfl | ⟨job, rfl, -, hnone, -, -, rfl⟩ := enqueueJob_cases he
  · exact h
  · exact h.insert hnone

/-- What the first arm leaves, and every call of the second keeps, is true of a new process. -/
theorem startup_induction {I : Daemon → Prop} (d : Daemon) (ledger : LedgerSqla)
    (hrequeued : I (reconcileInProgress { jobs := d.jobs }))
    (henqueue : ∀ d d' sourcePath seriesId queued, I d →
      enqueueJob d sourcePath seriesId "startup-reconcile" none none = .ok (queued, d') → I d') :
    I (startup d ledger) := by
  unfold startup reconcileInProgressFromLedger
  revert hrequeued
  generalize reconcileInProgress { jobs := d.jobs } = r
  intro hr
  induction ledger.processedFile.filter (·.status = .inProgress) generalizing r with
  | nil => exact hr
  | cons pf entries ih =>
    refine ih _ ?_
    unfold reconcileEntry
    split
    · exact hr
    · split
      · next he => exact henqueue r _ _ _ _ hr he
      · exact hr

/-- Queueing again what is active already: every job that is left to do is still there, and active. -/
theorem requeued_induction {I : Table Job → Prop}
    (hput : ∀ jobs job old, I jobs → jobs.get? job.id = some old →
      job.sourcePath = old.sourcePath → job.trigger = old.trigger → old.status ∈ activeStatuses →
        job.status = .queued → I (jobs.put job))
    (stale : List Job) (h : I jobs)
    (hstale : ∀ job ∈ stale, ∃ old, jobs.get? job.id = some old ∧ job.sourcePath = old.sourcePath ∧
      job.trigger = old.trigger ∧ old.status ∈ activeStatuses) :
    I (stale.foldl (fun jobs job => jobs.put { job with status := .queued }) jobs) := by
  induction stale generalizing jobs with
  | nil => exact h
  | cons job stale ih =>
    obtain ⟨old, hget, hpath, htrigger, hactive⟩ := hstale job List.mem_cons_self
    refine ih (hput jobs { job with status := .queued } old h hget hpath htrigger hactive rfl)
      fun next hnext => ?_
    obtain ⟨last, hlast, hpath', htrigger', hactive'⟩ :=
      hstale next (List.mem_cons_of_mem _ hnext)
    have hget' := Table.get?_put (t := jobs) (a := { job with status := .queued }) (n := next.id)
    rw [hlast] at hget'
    by_cases hid : next.id = job.id
    · rw [hid, hget] at hlast
      cases hlast
      exact ⟨_, hget'.trans (if_pos hid), hpath'.trans hpath.symm, htrigger'.trans htrigger.symm,
        List.mem_cons_self⟩
    · exact ⟨last, hget'.trans (if_neg hid), hpath', htrigger', hactive'⟩

/-- What queueing an active job again keeps is true of the table after the first arm. -/
theorem reconcileInProgress_induction {I : Table Job → Prop}
    (hput : ∀ jobs job old, I jobs → jobs.get? job.id = some old →
      job.sourcePath = old.sourcePath → job.trigger = old.trigger → old.status ∈ activeStatuses →
        job.status = .queued → I (jobs.put job)) (h : I jobs) :
    I (reconcileInProgress { jobs := jobs }).jobs := by
  refine requeued_induction hput _ h fun job hjob => ?_
  obtain ⟨hmem, hactive⟩ := List.mem_filter.mp hjob
  exact ⟨job, Table.mem_iff_get?.mp hmem, rfl, rfl, of_decide_eq_true hactive⟩

theorem startup_oneActive (h : OneActive d.jobs) (ledger : LedgerSqla) :
    OneActive (startup d ledger).jobs :=
  startup_induction d ledger
    (reconcileInProgress_induction (fun _ _ _ hjobs hget hpath _ hactive _ =>
      hjobs.put hget hpath fun _ => hactive) h)
    fun _ _ _ _ _ hd he => enqueueJob_oneActive hd he

theorem onJob_oneActive {f : Job → Job} (h : OneActive d.jobs) (hid : ∀ job, (f job).id = job.id)
    (hpath : ∀ job, (f job).sourcePath = job.sourcePath)
    (hended : ∀ job, (f job).status ∉ activeStatuses) : OneActive (onJob d jobId f).jobs := by
  unfold onJob
  split
  · exact h
  · next job hget =>
    have hown : d.jobs.get? (f job).id = some job := by
      rw [hid]
      exact Table.get?_id hget
    exact h.put hown (hpath job) fun hactive => (hended job hactive).elim

theorem settledJob_status (job : Job) (result : Outcome) :
    (settledJob job result).status ∉ activeStatuses := by
  unfold settledJob
  split <;> simp [activeStatuses]

theorem settledJob_path (job : Job) (result : Outcome) :
    (settledJob job result).sourcePath = job.sourcePath ∧ (settledJob job result).id = job.id := by
  unfold settledJob
  split <;> exact ⟨rfl, rfl⟩

/-- A retry changes nothing, or queues an ended job again. -/
theorem retryJob_cases (d : Daemon) (jobId : ℕ) :
    reactivated d (.retryJob jobId) = none ∧ DaemonOp.step d (.retryJob jobId) = d ∨
      ∃ job, d.jobs.get? jobId = some job ∧ reactivated d (.retryJob jobId) = some job ∧
        job.status ∉ activeStatuses ∧ ∃ reset : Job, reset.id = job.id ∧
          reset.sourcePath = job.sourcePath ∧ reset.status ∈ activeStatuses ∧
            reset.trigger = .manualRetry ∧ DaemonOp.step d (.retryJob jobId) =
              { d with jobs := d.jobs.put reset, workQueue := d.workQueue ++ [jobId] } := by
  simp only [DaemonOp.step, retryJob, reactivated]
  cases hget : d.jobs.get? jobId with
  | none => exact Or.inl ⟨rfl, rfl⟩
  | some job =>
    by_cases hs : job.status ∈ retriableStatuses
    · have hended : job.status ∉ activeStatuses := by
        revert hs
        cases job.status <;> decide
      simp only [hs, not_true_eq_false, if_false, Option.filter_some, decide_true, if_true]
      exact Or.inr ⟨job, rfl, rfl, hended,
        { job with status := .queued, errorReason := none, attempts := 0, trigger := .manualRetry },
        rfl, rfl, List.mem_cons_self, rfl, rfl⟩
    · simp only [hs, not_false_eq_true, if_true, Option.filter_some, decide_false]
      exact Or.inl ⟨rfl, rfl⟩

theorem retryJob_oneActive_iff (h : OneActive d.jobs) (jobId : ℕ) :
    OneActive (DaemonOp.step d (.retryJob jobId)).jobs ↔ Clear d (.retryJob jobId) := by
  unfold Clear
  obtain ⟨hnone, hstep⟩ | ⟨job, hget, hsome, hended, reset, hid, hpath, hactive, -, hstep⟩ :=
    retryJob_cases d jobId
  · rw [hstep, hnone]
    exact iff_of_true h fun job hjob => by cases hjob
  · rw [hstep, hsome]
    simp only [Option.mem_some_iff, forall_eq']
    exact oneActive_put_iff h (hid ▸ Table.get?_id hget) hpath hactive hended

theorem fetchJob_oneActive_iff (h : OneActive d.jobs) (jobId : ℕ) (commits : Bool) :
    OneActive (DaemonOp.step d (.fetchJob jobId commits)).jobs ↔
      Clear d (.fetchJob jobId commits) := by
  by_cases hq : jobId ∈ d.workQueue
  · cases hget : d.jobs.get? jobId with
    | none =>
      have hclear : Clear d (.fetchJob jobId commits) := by
        intro job hjob
        cases commits <;> simp [reactivated, hget] at hjob
      simp only [DaemonOp.step, hq, not_true_eq_false, if_false, hget]
      exact iff_of_true h hclear
    | some job =>
      have hown : d.jobs.get? (startedJob job).id = some job := Table.get?_id hget
      have hrunning : (startedJob job).status ∈ activeStatuses := by simp [startedJob, activeStatuses]
      cases commits with
      | false =>
        simp only [DaemonOp.step, hq, not_true_eq_false, if_false, hget]
        exact iff_of_true h fun job hjob => by cases hjob
      | true =>
        simp only [DaemonOp.step, hq, not_true_eq_false, if_false, hget, if_true, Clear,
          reactivated, Option.filter_some]
        by_cases hs : job.status ∈ activeStatuses
        · simp only [hs, not_true_eq_false, decide_false, Bool.false_eq_true, if_false]
          exact iff_of_true (h.put hown rfl fun _ => hs) fun job hjob => by cases hjob
        · simp only [hs, not_false_eq_true, decide_true, if_true, Option.mem_some_iff, forall_eq']
          exact oneActive_put_iff h hown rfl hrunning hs
  · have hclear : Clear d (.fetchJob jobId commits) := by
      intro job hjob
      cases commits <;> simp [reactivated, hq] at hjob
    simp only [DaemonOp.step, hq, not_false_eq_true, if_true]
    exact iff_of_true h hclear

/-- One operation: only an ended job that is taken up again can be one too many. -/
theorem step_oneActive_iff (h : OneActive d.jobs) (op : DaemonOp) :
    OneActive (op.step d).jobs ↔ Clear d op := by
  cases op with
  | retryJob jobId => exact retryJob_oneActive_iff h jobId
  | fetchJob jobId commits => exact fetchJob_oneActive_iff h jobId commits
  | enqueueJob sourcePath seriesId trigger mediaItem maxAutoAttempts =>
    refine iff_of_true ?_ fun job hjob => by cases hjob
    simp only [DaemonOp.step]
    split
    · next he => exact enqueueJob_oneActive h he
    · exact h
  | startup ledger =>
    exact iff_of_true (startup_oneActive h ledger) fun job hjob => by cases hjob
  | settleJob jobId result =>
    refine iff_of_true ?_ fun job hjob => by cases hjob
    simp only [DaemonOp.step]
    split
    · exact h
    · exact onJob_oneActive h (fun job => (settledJob_path job result).2)
        (fun job => (settledJob_path job result).1) fun job => settledJob_status job result
  | failJob execution =>
    refine iff_of_true ?_ fun job hjob => by cases hjob
    simp only [DaemonOp.step]
    split
    · exact h
    · exact onJob_oneActive h (fun _ => rfl) (fun _ => rfl) fun _ => by
        simp [crashedJob, activeStatuses]
  | leaveJob execution => exact iff_of_true h fun job hjob => by cases hjob

/-- Every path has one active job at most in every state of a run, exactly when every job that is
taken up again is alone. -/
theorem one_active_iff (d : Daemon) (ops : List DaemonOp) (h : OneActive d.jobs) :
    (∀ before after, ops = before ++ after → OneActive (run DaemonOp.step d before).jobs) ↔
      Along DaemonOp.step Clear d ops := by
  rw [everywhere_iff (I := fun d : Daemon => OneActive d.jobs) (J := fun _ => True) (G := Clear)
    (fun _ _ _ => trivial) (fun d op _ hd => step_oneActive_iff hd op) trivial]
  exact and_iff_right h

/-- A daemon over a table with one failed job. -/
def failedOnce : Daemon where
  jobs := ⟨[{ id := 1, sourcePath := "/tv/a.srt", status := .failed, trigger := .poll
              attempts := 1 }], by decide⟩

theorem failedOnce_oneActive : OneActive failedOnce.jobs := fun _ => List.length_filter_le _ _

/-- The job is retried and ends, and a poll is refused in between. -/
def retriedAlone : List DaemonOp :=
  [.retryJob 1, .enqueueJob "/tv/a.srt" none "poll" none (some 5), .fetchJob 1 true,
    .settleJob 1 { status := .done }, .enqueueJob "/tv/a.srt" none "manual" none none]

theorem retried_alone : OneActive (run DaemonOp.step failedOnce retriedAlone).jobs :=
  (one_active_iff failedOnce retriedAlone failedOnce_oneActive).mpr (by decide)
    retriedAlone [] (List.append_nil _).symm

/-- The source is queued by hand, and its failed job is retried beside it. -/
theorem retried_twice : OneActive failedOnce.jobs ∧
    ¬ OneActive (run DaemonOp.step failedOnce
      [.enqueueJob "/tv/a.srt" none "manual" none none, .retryJob 1]).jobs := by
  refine ⟨fun _ => List.length_filter_le _ _, fun h => ?_⟩
  have htwo := h "/tv/a.srt"
  revert htwo
  decide

end Trezarr.Web
