import Trezarr.Web.ActiveJobs

/-! What the work queue hands out is a job that has not ended, unless an execution failed behind
its own outcome. -/
namespace Trezarr.Web
open Text Runs

/-- The jobs somebody is to work on: those in the queue, and those fetched and not settled. -/
def claimed (d : Daemon) : List ℕ :=
  d.workQueue ++ (d.executions.filter (!·.settled)).map Execution.jobId

def ActiveRow (jobs : Table Job) (jobId : ℕ) : Prop :=
  ∃ job, jobs.get? jobId = some job ∧ job.status ∈ activeStatuses

/-- Nobody works on a job twice, nor on one that has ended. -/
structure Sound (d : Daemon) : Prop where
  nodup : (claimed d).Nodup
  active : ∀ jobId ∈ claimed d, ActiveRow d.jobs jobId

/-- An execution that has settled its job raises nothing afterwards. -/
def InTime : DaemonOp → Prop
  | .failJob execution => execution.settled = false
  | _ => True

variable {d d' : Daemon} {jobs : Table Job} {job old : Job} {sourcePath trigger : Str}
  {jobId n : ℕ} {execution : Execution}

theorem ActiveRow.put (h : ActiveRow jobs n) (hactive : job.status ∈ activeStatuses) :
    ActiveRow (jobs.put job) n := by
  obtain ⟨row, hget, hrow⟩ := h
  rw [ActiveRow, Table.get?_put, hget]
  split
  · exact ⟨job, rfl, hactive⟩
  · exact ⟨row, rfl, hrow⟩

theorem ActiveRow.put_other (h : ActiveRow jobs n) (hne : n ≠ job.id) :
    ActiveRow (jobs.put job) n := by
  obtain ⟨row, hget, hrow⟩ := h
  have hput := Table.get?_put (t := jobs) (a := job) (n := n)
  exact ⟨row, (hput.trans (if_neg hne)).trans hget, hrow⟩

theorem activeRow_put_self (hget : jobs.get? job.id = some old)
    (hactive : job.status ∈ activeStatuses) : ActiveRow (jobs.put job) job.id := by
  have hput := Table.get?_put (t := jobs) (a := job) (n := job.id)
  rw [hget] at hput
  exact ⟨job, hput.trans (if_pos rfl), hactive⟩

/-- A job that has ended is nobody's. -/
theorem Sound.not_claimed (h : Sound d) (hget : d.jobs.get? n = some job)
    (hended : job.status ∉ activeStatuses) : n ∉ claimed d := by
  intro hn
  obtain ⟨row, hrow, hactive⟩ := h.active n hn
  rw [hget] at hrow
  cases hrow
  exact hended hactive

/-- A step that claims nothing new and leaves the claimed jobs active. -/
theorem Sound.of_subperm (h : Sound d) (hclaim : (claimed d').Subperm (claimed d))
    (hactive : ∀ jobId ∈ claimed d', ActiveRow d.jobs jobId → ActiveRow d'.jobs jobId) : Sound d' where
  nodup := by
    obtain ⟨l, hperm, hsub⟩ := hclaim
    exact hperm.nodup_iff.mp (hsub.nodup h.nodup)
  active jobId hn := hactive jobId hn (h.active jobId (hclaim.subset hn))

/-- A step that claims one job that nobody had. -/
theorem Sound.of_cons (h : Sound d) (hclaim : (claimed d').Perm (n :: claimed d))
    (hfree : n ∉ claimed d) (hown : ActiveRow d'.jobs n)
    (hactive : ∀ jobId ∈ claimed d, ActiveRow d.jobs jobId → ActiveRow d'.jobs jobId) : Sound d' where
  nodup := hclaim.nodup_iff.mpr (List.nodup_cons.mpr ⟨hfree, h.nodup⟩)
  active jobId hj := by
    rcases List.mem_cons.mp (hclaim.mem_iff.mp hj) with rfl | hj
    · exact hown
    · exact hactive jobId hj (h.active jobId hj)

theorem claimed_queue (d : Daemon) (jobs : Table Job) (n : ℕ) :
    (claimed { d with jobs := jobs, workQueue := d.workQueue ++ [n] }).Perm (n :: claimed d) := by
  simp only [claimed, List.append_assoc]
  exact List.perm_middle

/-- A job that is fetched passes from the queue to an execution. -/
theorem claimed_fetch (hq : jobId ∈ d.workQueue) (jobs : Table Job) :
    (claimed ⟨jobs, d.workQueue.erase jobId, d.executions ++ [⟨jobId, false⟩]⟩).Perm (claimed d) := by
  simp only [claimed, List.filter_append, List.map_append]
  have hqueue := (List.perm_cons_erase hq).append_right
    ((d.executions.filter (!·.settled)).map Execution.jobId)
  refine List.Perm.trans ?_ hqueue.symm
  rw [← List.append_assoc]
  exact List.perm_append_singleton jobId _

theorem enqueueJob_sound {seriesId : Option ℤ} {mediaItem : Option MediaItemSnapshot}
    {maxAutoAttempts : Option ℤ} {queued : Bool} (h : Sound d)
    (he : enqueueJob d sourcePath seriesId trigger mediaItem maxAutoAttempts = .ok (queued, d')) :
    Sound d' := by
  obtain rfl | ⟨job, -, hqueued, -, -, -, rfl⟩ := enqueueJob_cases he
  · exact h
  · have hget := Table.get?_insert (t := d.jobs) (a := job) (n := d.jobs.nextId)
    refine h.of_cons (n := d.jobs.nextId) ?_ (fun hn => ?_) ?_ fun n hn hrow => ?_
    · exact claimed_queue d _ _
    · obtain ⟨row, hrow, -⟩ := h.active _ hn
      exact (Table.get?_lt_nextId hrow).false
    · refine ⟨(d.jobs.insert job).1, hget.trans (if_pos rfl), ?_⟩
      rw [show (d.jobs.insert job).1.status = .queued from hqueued]
      exact List.mem_cons_self
    · obtain ⟨row, hrow, hactive⟩ := hrow
      have hne : n ≠ d.jobs.nextId := (Table.get?_lt_nextId hrow).ne
      exact ⟨row, (Table.get?_insert.trans (if_neg hne)).trans hrow, hactive⟩

theorem requeued_active (stale : List Job) (h : ActiveRow jobs n) :
    ActiveRow (stale.foldl (fun jobs job => jobs.put { job with status := .queued }) jobs) n := by
  induction stale generalizing jobs with
  | nil => exact h
  | cons job stale ih => exact ih (h.put List.mem_cons_self)

theorem startup_sound (d : Daemon) (ledger : LedgerSqla) : Sound (startup d ledger) := by
  refine startup_induction d ledger ?_ fun _ _ _ _ _ hd he => enqueueJob_sound hd he
  have hclaimed : claimed (reconcileInProgress { jobs := d.jobs }) =
      (d.jobs.select fun job => job.status ∈ activeStatuses).map Job.id := by
    simp [claimed, reconcileInProgress]
  refine ⟨?_, fun n hn => ?_⟩
  · rw [hclaimed]
    exact (List.filter_sublist.map _).nodup d.jobs.nodup
  · rw [hclaimed] at hn
    obtain ⟨job, hjob, rfl⟩ := List.mem_map.mp hn
    obtain ⟨hmem, hactive⟩ := List.mem_filter.mp hjob
    exact requeued_active _ ⟨job, Table.mem_iff_get?.mp hmem, of_decide_eq_true hactive⟩

theorem retryJob_sound (h : Sound d) (jobId : ℕ) :
    Sound (DaemonOp.step d (.retryJob jobId)) := by
  obtain ⟨-, hstep⟩ | ⟨job, hget, -, hended, reset, hid, -, hactive, -, hstep⟩ :=
    retryJob_cases d jobId
  · rw [hstep]
    exact h
  · rw [hstep]
    have hown : reset.id = jobId := hid.trans (Table.id_of_get? hget)
    refine h.of_cons (n := jobId) ?_ (h.not_claimed hget hended) ?_ fun n hn hrow => ?_
    · exact claimed_queue d _ _
    · rw [← hown] at hget ⊢
      exact activeRow_put_self hget hactive
    · exact hrow.put hactive

theorem fetchJob_sound (h : Sound d) (jobId : ℕ) (commits : Bool) :
    Sound (DaemonOp.step d (.fetchJob jobId commits)) := by
  by_cases hq : jobId ∈ d.workQueue
  · obtain ⟨job, hget, hactive⟩ := h.active jobId (List.mem_append_left _ hq)
    simp only [DaemonOp.step, hq, not_true_eq_false, if_false, hget]
    cases commits with
    | false =>
      rw [if_neg Bool.false_ne_true]
      exact h.of_subperm (claimed_fetch hq d.jobs).subperm fun _ _ hrow => hrow
    | true =>
      rw [if_pos rfl]
      refine h.of_subperm (claimed_fetch hq _).subperm fun n _ hrow => hrow.put ?_
      simp [startedJob, activeStatuses]
  · simp only [DaemonOp.step, hq, not_false_eq_true, if_true]
    exact h

/-- An execution that is taken off the list gives its job back, unless it had settled it. -/
theorem claimed_erase (he : execution ∈ d.executions) :
    (claimed d).Perm ((if execution.settled then [] else [execution.jobId]) ++
      claimed { d with executions := d.executions.erase execution }) := by
  have hperm := ((List.perm_cons_erase he).filter (!·.settled)).map Execution.jobId
  rw [List.filter_cons] at hperm
  cases hs : execution.settled with
  | true =>
    rw [hs] at hperm
    exact hperm.append_left d.workQueue
  | false =>
    rw [hs] at hperm
    exact (hperm.append_left d.workQueue).trans List.perm_middle

/-- The job of an execution ends when the execution has just let go of it. -/
theorem onJob_sound {f : Job → Job} (h : Sound d) (hid : ∀ job, (f job).id = job.id)
    (hfree : jobId ∉ claimed d) : Sound (onJob d jobId f) := by
  unfold onJob
  split
  · exact h
  · next job hget =>
    refine h.of_subperm (List.Subperm.refl _) fun n hn hrow => hrow.put_other ?_
    rw [hid, show job.id = jobId from Table.id_of_get? hget]
    rintro rfl
    exact hfree hn

/-- Letting go of a job that is not settled: it was claimed once, so it is free now. -/
theorem released_sound (h : Sound d) (he : execution ∈ d.executions)
    (hs : execution.settled = false) :
    Sound { d with executions := d.executions.erase execution } ∧
      execution.jobId ∉ claimed { d with executions := d.executions.erase execution } := by
  have hclaim := claimed_erase he
  rw [hs] at hclaim
  have hd := hclaim.nodup_iff.mp h.nodup
  exact ⟨h.of_subperm ((List.sublist_cons_self _ _).subperm.trans hclaim.symm.subperm)
    fun _ _ hrow => hrow, (List.nodup_cons.mp hd).1⟩

theorem step_sound (h : Sound d) (op : DaemonOp) (hop : InTime op) : Sound (op.step d) := by
  cases op with
  | retryJob jobId => exact retryJob_sound h jobId
  | fetchJob jobId commits => exact fetchJob_sound h jobId commits
  | startup ledger => exact startup_sound d ledger
  | enqueueJob sourcePath seriesId trigger mediaItem maxAutoAttempts =>
    simp only [DaemonOp.step]
    split
    · next he => exact enqueueJob_sound h he
    · exact h
  | settleJob jobId result =>
    simp only [DaemonOp.step]
    split
    · exact h
    · next he =>
      obtain ⟨hsound, hfree⟩ := released_sound h (not_not.mp he) rfl
      have hclaim : claimed { d with
          executions := d.executions.erase ⟨jobId, false⟩ ++ [⟨jobId, true⟩] } =
            claimed { d with executions := d.executions.erase ⟨jobId, false⟩ } := by
        simp [claimed]
      refine onJob_sound ?_ (fun job => (settledJob_path job result).2) (hclaim ▸ hfree)
      exact hsound.of_subperm (hclaim ▸ List.Subperm.refl _) fun _ _ hrow => hrow
  | failJob execution =>
    simp only [DaemonOp.step]
    split
    · exact h
    · next he =>
      obtain ⟨hsound, hfree⟩ := released_sound h (not_not.mp he) hop
      exact onJob_sound hsound (fun _ => rfl) hfree
  | leaveJob execution =>
    simp only [DaemonOp.step]
    by_cases he : execution ∈ d.executions
    · have hclaim := claimed_erase he
      exact h.of_subperm ((List.sublist_append_right _ _).subperm.trans hclaim.symm.subperm)
        fun _ _ hrow => hrow
    · rw [List.erase_of_not_mem he]
      exact h

theorem idle_sound (jobs : Table Job) : Sound { jobs := jobs } :=
  ⟨List.nodup_nil, fun _ hn => by cases hn⟩

/-- A job that is fetched has not ended. -/
theorem Sound.fetch_clear (h : Sound d) (jobId : ℕ) (commits : Bool) :
    Clear d (.fetchJob jobId commits) := by
  intro job hjob
  cases commits with
  | false => cases hjob
  | true =>
    simp only [reactivated] at hjob
    split at hjob
    · next hq =>
      obtain ⟨hget, hended⟩ := Option.mem_filter_iff.mp hjob
      exact (h.not_claimed hget (of_decide_eq_true hended) (List.mem_append_left _ hq)).elim
    · cases hjob

/-- In a run of a new process whose executions raise nothing behind their outcomes, only the
retries decide. -/
theorem retries_decide (jobs : Table Job) (ops : List DaemonOp) (h : OneActive jobs)
    (hin : ∀ op ∈ ops, InTime op) :
    (∀ before after, ops = before ++ after →
        OneActive (run DaemonOp.step { jobs := jobs } before).jobs) ↔
      Along DaemonOp.step (fun d op => ∀ jobId, op = .retryJob jobId → Clear d op) { jobs := jobs }
        ops := by
  rw [everywhere_iff (I := fun d : Daemon => OneActive d.jobs) (J := fun _ => True) (G := Clear)
    (fun _ _ _ => trivial) (fun d op _ hd => step_oneActive_iff hd op) trivial, and_iff_right h]
  have htime : Along DaemonOp.step (fun _ op => InTime op) { jobs := jobs } ops :=
    along_mem.mono fun _ op hop => hin op hop
  have hfetch : Along DaemonOp.step
      (fun d op => ∀ jobId commits, op = .fetchJob jobId commits → Clear d op) { jobs := jobs }
      ops := by
    refine along_of_invariant (I := Sound) (fun d op hd hop => step_sound hd op hop) ?_
      (idle_sound jobs) htime
    rintro d op hd - jobId commits rfl
    exact hd.fetch_clear jobId commits
  constructor
  · exact fun hclear => hclear.mono fun d op hop jobId _ => hop
  · intro hretry
    refine (along_and.mpr ⟨hretry, hfetch⟩).mono fun d op hop => ?_
    cases op with
    | retryJob jobId => exact hop.1 jobId rfl
    | fetchJob jobId commits => exact hop.2 jobId commits rfl
    | enqueueJob | startup | settleJob | failJob | leaveJob => exact fun job hjob => by cases hjob

end Trezarr.Web
