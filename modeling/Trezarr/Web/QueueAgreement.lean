import Trezarr.Web.Calls
import Trezarr.Web.WorkQueue

/-! The work queue holds what the table has as queued, in every order of the awaits in which a call
finds the job it inserted and a retry finds the job ended. -/
namespace Trezarr.Web
open Text Runs

def idsIn (jobs : Table Job) (status : JobStatus) : List ℕ :=
  (jobs.select (·.status = status)).map Job.id

/-- The ids a call still has to put: those of its commit. -/
def Call.unput : Call → List ℕ
  | .inserted jobId _ _ => [jobId]
  | .putting jobId => jobId.toList
  | _ => []

/-- No call is between its commit and its put. -/
def Quiet (p : Process) : Prop := p.calls.flatMap Call.unput = []

instance (p : Process) : Decidable (Quiet p) := inferInstanceAs (Decidable (_ = _))

/-- What waits in the memory of the process is what waits in the table. -/
def InAgreement (p : Process) : Prop := (p.workQueue ++ p.dispatched).Perm (idsIn p.jobs .queued)

instance (p : Process) : Decidable (InAgreement p) := inferInstanceAs (Decidable (List.Perm _ _))

/-- A call that looks for its job has no other in front that waits with the same trigger, and a
retry still has an ended job when it commits. -/
def Unmixed (p : Process) : ProcessOp → Prop
  | .find (.inserted jobId sourcePath trigger) =>
    ∀ job ∈ p.jobs.rows.takeWhile (·.id ≠ jobId),
      ¬ (job.sourcePath = sourcePath ∧ job.status = .queued ∧ job.trigger = trigger)
  | .resetJob (.retriable jobId) => ∀ job ∈ p.jobs.get? jobId, job.status ∉ activeStatuses
  | _ => True

instance (p : Process) (op : ProcessOp) : Decidable (Unmixed p op) := by
  unfold Unmixed
  split <;> infer_instance

/-- The jobs of the executions that have not ended. -/
def unsettled (d : Daemon) : List ℕ := (d.executions.filter (!·.settled)).map Execution.jobId

/-- Every queued job is in the queue, with a task or with a call, and every running one has an
execution. -/
structure Accounted (p : Process) : Prop where
  waiting : (p.workQueue ++ p.dispatched ++ p.calls.flatMap Call.unput).Perm (idsIn p.jobs .queued)
  running : (unsettled p.toDaemon).Perm (idsIn p.jobs .running)
  own : ∀ jobId sourcePath trigger, .inserted jobId sourcePath trigger ∈ p.calls →
    ∃ job, p.jobs.get? jobId = some job ∧ job.sourcePath = sourcePath ∧
      (job.status = .queued → job.trigger = trigger)

variable {p : Process} {d : Daemon} {jobs : Table Job} {job old : Job} {status : JobStatus}
  {call : Call} {next : Option Call} {jobId n : ℕ} {execution : Execution}

theorem not_mem_activeStatuses : status ∉ activeStatuses ↔ status ≠ .queued ∧ status ≠ .running := by
  simp [activeStatuses]

theorem mem_idsIn : n ∈ idsIn jobs status ↔ (jobs.get? n).map Job.status = some status := by
  simp only [idsIn, Table.select, List.mem_map, List.mem_filter, decide_eq_true_eq,
    Option.map_eq_some_iff]
  constructor
  · rintro ⟨job, ⟨hrow, hs⟩, rfl⟩
    exact ⟨job, Table.mem_iff_get?.mp hrow, hs⟩
  · rintro ⟨job, hget, hs⟩
    exact ⟨job, ⟨Table.mem_of_get? hget, hs⟩, Table.id_of_get? hget⟩

theorem nodup_idsIn (jobs : Table Job) (status : JobStatus) : (idsIn jobs status).Nodup :=
  (List.filter_sublist.map _).nodup jobs.nodup

theorem idsIn_insert : idsIn (jobs.insert job).2 status =
    idsIn jobs status ++ if job.status = status then [jobs.nextId] else [] := by
  have hstatus : (jobs.insert job).1.status = job.status := rfl
  change ((jobs.rows ++ [(jobs.insert job).1]).filter _).map Job.id = _
  rw [List.filter_append, List.map_append, List.filter_singleton, hstatus]
  by_cases h : job.status = status
  · rw [decide_eq_true h, if_pos h]
    rfl
  · rw [decide_eq_false h, if_neg h]
    rfl

/-- A row that is rewritten leaves the ids of its old status for those of the new one. -/
theorem idsIn_put (hget : jobs.get? job.id = some old) (status : JobStatus) :
    ((if old.status = status then [job.id] else []) ++ idsIn (jobs.put job) status).Perm
      ((if job.status = status then [job.id] else []) ++ idsIn jobs status) := by
  obtain ⟨before, after, hrows, hput⟩ := Table.rows_put hget
  have hid : old.id = job.id := Table.id_of_get? hget
  have hids : ∀ row : Job, row.id = job.id →
      ((before ++ row :: after).filter (·.status = status)).map Job.id =
        (before.filter (·.status = status)).map Job.id ++
          ((if row.status = status then [job.id] else []) ++
            (after.filter (·.status = status)).map Job.id) := by
    intro row hrow
    rw [List.filter_append, List.map_append, List.filter_cons]
    by_cases hs : row.status = status <;> simp [hs, hrow]
  simp only [idsIn, Table.select, hrows, hput, hids old hid, hids job rfl]
  grind [List.perm_append_comm_assoc]

/-- A call that comes to its next await has put or taken over what it owed. -/
theorem unput_advance (p : Process) (hcall : call ∈ p.calls) (next : Option Call) :
    (call.unput ++ (ProcessOp.advance p call next).calls.flatMap Call.unput).Perm
      (p.calls.flatMap Call.unput ++ next.toList.flatMap Call.unput) := by
  change (call.unput ++ (p.calls.erase call ++ next.toList).flatMap Call.unput).Perm _
  rw [List.flatMap_append, ← List.append_assoc, ← List.flatMap_cons]
  exact ((List.perm_cons_erase hcall).symm.flatMap_right _).append_right _

theorem mem_advance {p : Process} {c : Call} (h : c ∈ (ProcessOp.advance p call next).calls) :
    c ∈ p.calls ∨ some c = next := by
  rcases List.mem_append.mp h with h | h
  · exact Or.inl (List.mem_of_mem_erase h)
  · exact Or.inr (Option.mem_toList.mp h).symm

/-- A call that owes nothing before and after leaves everything accounted for. -/
theorem Accounted.advance (h : Accounted p) (hcall : call ∈ p.calls)
    (howed : call.unput = next.toList.flatMap Call.unput)
    (hnext : ∀ jobId sourcePath trigger, next ≠ some (.inserted jobId sourcePath trigger)) :
    Accounted (ProcessOp.advance p call next) where
  waiting := by
    have hperm := unput_advance p hcall next
    rw [← howed] at hperm
    have hsame := (List.perm_append_left_iff _).mp (hperm.trans List.perm_append_comm)
    exact (hsame.append_left _).trans h.waiting
  running := h.running
  own jobId sourcePath trigger hown := by
    rcases mem_advance hown with hown | hown
    · exact h.own jobId sourcePath trigger hown
    · exact (hnext jobId sourcePath trigger hown.symm).elim

/-- A call that has only read owes nothing. -/
theorem Accounted.asked (h : Accounted p) (howed : call.unput = [])
    (hnew : ∀ jobId sourcePath trigger, call ≠ .inserted jobId sourcePath trigger) :
    Accounted { p with calls := p.calls ++ [call] } where
  waiting := by
    simpa only [List.flatMap_append, List.flatMap_singleton, howed, List.append_nil] using h.waiting
  running := h.running
  own jobId sourcePath trigger hown := by
    rcases List.mem_append.mp hown with hown | hown
    · exact h.own jobId sourcePath trigger hown
    · exact (hnew jobId sourcePath trigger (List.mem_singleton.mp hown).symm).elim

theorem put_accounted {found : Option ℕ} (h : Accounted p) (hcall : .putting found ∈ p.calls) :
    Accounted (ProcessOp.advance { p with workQueue := p.workQueue ++ found.toList }
      (.putting found) none) where
  waiting := by
    have hperm := unput_advance p hcall none
    rw [show (none : Option Call).toList.flatMap Call.unput = [] from rfl, List.append_nil] at hperm
    change (p.workQueue ++ found.toList ++ p.dispatched ++ _).Perm _
    have hmoved : (p.workQueue ++ found.toList ++ p.dispatched).Perm
        (p.workQueue ++ p.dispatched ++ found.toList) := by
      simp only [List.append_assoc]
      exact List.perm_append_comm.append_left _
    refine (hmoved.append_right _).trans ?_
    rw [List.append_assoc]
    exact (hperm.append_left _).trans h.waiting
  running := h.running
  own jobId sourcePath trigger hown := by
    rcases mem_advance hown with hown | hown
    · exact h.own jobId sourcePath trigger hown
    · cases hown

theorem Accounted.queued (h : Accounted p) (hcall : call ∈ p.calls) (hn : n ∈ call.unput) :
    n ∈ idsIn p.jobs .queued :=
  h.waiting.subset (List.mem_append_right _ (List.mem_flatMap.mpr ⟨call, hcall, hn⟩))

/-- The row a call has inserted is still its own when a row is rewritten that does not stay queued. -/
theorem Accounted.own_put (h : Accounted p) (hget : p.jobs.get? job.id = some old)
    (hpath : job.sourcePath = old.sourcePath)
    (hleft : old.status = .queued → job.status ≠ .queued) {sourcePath : Str} {trigger : JobTrigger}
    (hown : .inserted jobId sourcePath trigger ∈ p.calls) :
    ∃ row, (p.jobs.put job).get? jobId = some row ∧ row.sourcePath = sourcePath ∧
      (row.status = .queued → row.trigger = trigger) := by
  obtain ⟨row, hrow, hp, ht⟩ := h.own jobId sourcePath trigger hown
  have hput := Table.get?_put (t := p.jobs) (a := job) (n := jobId)
  rw [hrow] at hput
  by_cases hid : jobId = job.id
  · have hq := mem_idsIn.mp (h.queued hown (List.mem_singleton_self jobId))
    rw [hid, hget] at hrow hq
    cases hrow
    exact ⟨job, hput.trans (if_pos hid), hpath.trans hp,
      fun hs => (hleft (Option.some.inj hq) hs).elim⟩
  · exact ⟨row, hput.trans (if_neg hid), hp, ht⟩

theorem insert_accounted (h : Accounted p) (hcall : call ∈ p.calls) (howed : call.unput = [])
    (hqueued : job.status = .queued) :
    Accounted (ProcessOp.advance { p with jobs := (p.jobs.insert job).2 } call
      (some (.inserted p.jobs.nextId job.sourcePath job.trigger))) where
  waiting := by
    have hperm := unput_advance p hcall (some (.inserted p.jobs.nextId job.sourcePath job.trigger))
    rw [howed, List.nil_append] at hperm
    change (p.workQueue ++ p.dispatched ++ _).Perm (idsIn (p.jobs.insert job).2 .queued)
    rw [idsIn_insert, if_pos hqueued]
    refine (hperm.append_left _).trans ?_
    rw [← List.append_assoc]
    exact h.waiting.append_right _
  running := by
    change (unsettled p.toDaemon).Perm (idsIn (p.jobs.insert job).2 .running)
    rw [idsIn_insert, hqueued, if_neg (by decide), List.append_nil]
    exact h.running
  own jobId sourcePath trigger hown := by
    have hget := Table.get?_insert (t := p.jobs) (a := job) (n := jobId)
    rcases mem_advance hown with hown | hown
    · obtain ⟨row, hrow, hp, ht⟩ := h.own jobId sourcePath trigger hown
      have hne : jobId ≠ p.jobs.nextId := (Table.get?_lt_nextId hrow).ne
      exact ⟨row, (hget.trans (if_neg hne)).trans hrow, hp, ht⟩
    · cases hown
      exact ⟨_, hget.trans (if_pos rfl), rfl, fun _ => rfl⟩

/-- A call whose job is the first that waits finds it. -/
theorem waitingJob_own {sourcePath : Str} {trigger : JobTrigger} (hget : jobs.get? jobId = some job)
    (hpath : job.sourcePath = sourcePath) (hqueued : job.status = .queued)
    (htrigger : job.trigger = trigger)
    (hfirst : ∀ row ∈ jobs.rows.takeWhile (·.id ≠ jobId),
      ¬ (row.sourcePath = sourcePath ∧ row.status = .queued ∧ row.trigger = trigger)) :
    (waitingJob jobs sourcePath trigger).map Job.id = some jobId := by
  obtain ⟨hid, before, after, hrows, hbefore⟩ := List.find?_eq_some_iff_append.mp hget
  have hkey : ∀ row : Job, Keyed.id row = row.id := fun _ => rfl
  simp only [hkey, decide_eq_true_eq] at hid hbefore
  have htake : jobs.rows.takeWhile (·.id ≠ jobId) = before := by
    rw [hrows, List.takeWhile_append_of_pos fun row hrow => by simpa using hbefore row hrow,
      List.takeWhile_cons_of_neg (by simpa using hid), List.append_nil]
  have hfound : waitingJob jobs sourcePath trigger = some job := by
    rw [waitingJob, jobsIn, Table.select, List.find?_filter, List.find?_eq_some_iff_append]
    refine ⟨by simp [hpath, hqueued, htrigger], before, after, hrows, fun row hrow => ?_⟩
    have hnot := hfirst row (htake ▸ hrow)
    grind
  rw [hfound]
  exact congrArg some (Table.id_of_get? hget)

theorem reset_accounted (h : Accounted p) (hcall : Call.retriable old.id ∈ p.calls)
    (hget : p.jobs.get? job.id = some old) (hpath : job.sourcePath = old.sourcePath)
    (hqueued : job.status = .queued) (hended : old.status ∉ activeStatuses) :
    Accounted (ProcessOp.advance { p with jobs := p.jobs.put job } (.retriable old.id)
      (some (.putting (some old.id)))) where
  waiting := by
    have hperm := unput_advance p hcall (some (.putting (some old.id)))
    have hput := idsIn_put hget .queued
    rw [if_neg (not_mem_activeStatuses.mp hended).1, if_pos hqueued,
      ← Table.id_of_get? hget] at hput
    change (p.workQueue ++ p.dispatched ++ _).Perm (idsIn (p.jobs.put job) .queued)
    refine (hperm.append_left _).trans ?_
    rw [← List.append_assoc]
    exact (h.waiting.append_right _).trans (List.perm_append_comm.trans hput.symm)
  running := by
    have hput := idsIn_put hget .running
    rw [if_neg (not_mem_activeStatuses.mp hended).2, hqueued,
      if_neg (by decide)] at hput
    exact h.running.trans hput.symm
  own jobId sourcePath trigger hown := by
    rcases mem_advance hown with hown | hown
    · exact h.own_put hget hpath (fun hs => ((not_mem_activeStatuses.mp hended).1 hs).elim) hown
    · cases hown

/-- An execution that has its job running ends it. -/
theorem ended_accounted (h : Accounted p) (hget : p.jobs.get? job.id = some old)
    (hpath : job.sourcePath = old.sourcePath) (hended : job.status ∉ activeStatuses)
    (hold : old.status = .running) {executions : List Execution}
    (hleft : (unsettled p.toDaemon).Perm
      (job.id :: (executions.filter (!·.settled)).map Execution.jobId)) :
    Accounted { p with jobs := p.jobs.put job, executions := executions } where
  waiting := by
    have hput := idsIn_put hget .queued
    rw [hold, if_neg (by decide), if_neg (not_mem_activeStatuses.mp hended).1] at hput
    exact h.waiting.trans hput.symm
  running := by
    have hput := idsIn_put hget .running
    rw [if_pos hold,
      if_neg (not_mem_activeStatuses.mp hended).2] at hput
    exact (List.perm_cons _).mp ((hleft.symm.trans h.running).trans hput.symm)
  own jobId sourcePath trigger hown :=
    h.own_put hget hpath (fun hs => by rw [hold] at hs; cases hs) hown

theorem started_accounted (h : Accounted p) (hd : jobId ∈ p.dispatched)
    (hget : p.jobs.get? jobId = some job) :
    Accounted { p with
      dispatched := p.dispatched.erase jobId, jobs := p.jobs.put (startedJob job)
      executions := p.executions ++ [⟨jobId, false⟩] } := by
  have hqueued : job.status = .queued := by
    have hq := mem_idsIn.mp (h.waiting.subset
      (List.mem_append_left _ (List.mem_append_right _ hd)))
    rw [hget] at hq
    exact Option.some.inj hq
  have hid : job.id = jobId := Table.id_of_get? hget
  have hown : p.jobs.get? (startedJob job).id = some job := hid.symm ▸ hget
  refine ⟨?_, ?_, fun n sourcePath trigger hcall => ?_⟩
  · have hput := idsIn_put hown .queued
    rw [if_pos hqueued, if_neg (by simp [startedJob]), show (startedJob job).id = jobId from hid]
      at hput
    have hout := (((List.perm_cons_erase hd).append_left p.workQueue).trans
      List.perm_middle).append_right (p.calls.flatMap Call.unput)
    exact (List.perm_cons jobId).mp ((hout.symm.trans h.waiting).trans hput.symm)
  · have hput := idsIn_put hown .running
    rw [hqueued, if_neg (by decide), if_pos (by simp [startedJob]),
      show (startedJob job).id = jobId from hid] at hput
    change (List.map _ (List.filter _ (p.executions ++ [⟨jobId, false⟩]))).Perm _
    rw [List.filter_append, List.map_append]
    exact (h.running.append_right [jobId]).trans (List.perm_append_comm.trans hput.symm)
  · exact h.own_put hown rfl (fun _ => by simp [startedJob]) hcall

/-- The job of an execution that has not ended is running. -/
theorem Accounted.executing (h : Accounted p) (he : execution ∈ p.executions)
    (hs : execution.settled = false) :
    ∃ job, p.jobs.get? execution.jobId = some job ∧ job.status = .running := by
  have hn : execution.jobId ∈ unsettled p.toDaemon :=
    List.mem_map_of_mem (List.mem_filter.mpr ⟨he, by rw [hs]; rfl⟩)
  exact Option.map_eq_some_iff.mp (mem_idsIn.mp (h.running.subset hn))

/-- An execution settles its job, or fails before it has, and leaves its place to `rest`. -/
theorem onJob_accounted {f : Job → Job} (rest : List Execution) (h : Accounted p)
    (he : ⟨jobId, false⟩ ∈ p.executions) (hid : ∀ job, (f job).id = job.id)
    (hpath : ∀ job, (f job).sourcePath = job.sourcePath)
    (hended : ∀ job, (f job).status ∉ activeStatuses) (hrest : rest.filter (!·.settled) = []) :
    Accounted { p with
      toDaemon := onJob { p.toDaemon with
        executions := p.executions.erase ⟨jobId, false⟩ ++ rest } jobId f } := by
  obtain ⟨job, hget, hrunning⟩ := h.executing he rfl
  have hown : (f job).id = jobId := (hid job).trans (Table.id_of_get? hget)
  simp only [onJob, hget]
  refine ended_accounted h (hown.symm ▸ hget) (hpath job) (hended job) hrunning ?_
  rw [List.filter_append, hrest, List.append_nil, hown]
  exact ((List.perm_cons_erase he).filter _).map _

theorem step_accounted (h : Accounted p) (op : ProcessOp) (hop : Unmixed p op) :
    Accounted (op.step p) := by
  cases op with
  | dedup sourcePath seriesId trigger mediaItem maxAutoAttempts =>
    simp only [ProcessOp.step]
    split
    · exact h
    · exact h.asked rfl (by simp)
  | countTerminal call =>
    simp only [ProcessOp.step]
    split
    · exact h
    · next hcall =>
      cases call with
      | deduped sourcePath seriesId trigger mediaItem maxAutoAttempts =>
        dsimp only
        split
        · exact h.advance (not_not.mp hcall) rfl (by simp)
        · exact h.advance (not_not.mp hcall) rfl (by simp)
      | admitted | inserted | retriable | putting => exact h
  | insert call =>
    simp only [ProcessOp.step]
    split
    · exact h
    · next hcall =>
      cases call with
      | admitted sourcePath seriesId trigger mediaItem =>
        dsimp only
        split
        · exact h.advance (not_not.mp hcall) rfl (by simp)
        · exact insert_accounted h (not_not.mp hcall) rfl rfl
      | deduped | inserted | retriable | putting => exact h
  | find call =>
    simp only [ProcessOp.step]
    split
    · exact h
    · next hcall =>
      cases call with
      | inserted jobId sourcePath trigger =>
        obtain ⟨job, hget, hpath, htrigger⟩ := h.own jobId sourcePath trigger (not_not.mp hcall)
        have hwaits := mem_idsIn.mp (h.queued (not_not.mp hcall) (List.mem_singleton_self jobId))
        rw [hget] at hwaits
        have hqueued : job.status = .queued := Option.some.inj hwaits
        have hfound := waitingJob_own hget hpath hqueued (htrigger hqueued) hop
        dsimp only
        rw [hfound]
        exact h.advance (not_not.mp hcall) rfl (by simp)
      | deduped | admitted | retriable | putting => exact h
  | put call =>
    simp only [ProcessOp.step]
    split
    · exact h
    · next hcall =>
      cases call with
      | putting jobId => exact put_accounted h (not_not.mp hcall)
      | deduped | admitted | inserted | retriable => exact h
  | readJob jobId =>
    simp only [ProcessOp.step]
    split
    · exact h
    · split
      · exact h.asked rfl (by simp)
      · exact h
  | resetJob call =>
    simp only [ProcessOp.step]
    split
    · exact h
    · next hcall =>
      cases call with
      | retriable jobId =>
        dsimp only
        split
        · exact h.advance (not_not.mp hcall) rfl (by simp)
        · next job hget =>
          obtain rfl : job.id = jobId := Table.id_of_get? hget
          exact reset_accounted h (not_not.mp hcall) hget rfl rfl (hop job hget)
      | deduped | admitted | inserted | putting => exact h
  | dispatch =>
    simp only [ProcessOp.step]
    split
    · exact h
    · next jobId rest hqueue =>
      refine ⟨?_, h.running, h.own⟩
      have hwaiting := h.waiting
      rw [hqueue] at hwaiting
      refine List.Perm.trans (List.Perm.append_right _ ?_) hwaiting
      rw [← List.append_assoc]
      exact List.perm_append_comm
  | markRunning jobId =>
    simp only [ProcessOp.step]
    split
    · exact h
    · next hd =>
      split
      · next hnone =>
        have hwaits := mem_idsIn.mp (h.waiting.subset
          (List.mem_append_left _ (List.mem_append_right _ (not_not.mp hd))))
        rw [hnone] at hwaits
        cases hwaits
      · next job hget => exact started_accounted h (not_not.mp hd) hget
  | settleJob jobId result => 
    simp only [ProcessOp.step, DaemonOp.step]
    split
    · exact h
    · next he =>
      exact onJob_accounted [⟨jobId, true⟩] h (not_not.mp he) (fun job => (settledJob_path job result).2)
        (fun job => (settledJob_path job result).1) (fun job => settledJob_status job result) rfl
  | failJob jobId =>
    simp only [ProcessOp.step, DaemonOp.step]
    split
    · exact h
    · next he =>
      have hfailed := onJob_accounted (f := crashedJob) [] h (not_not.mp he) (fun _ => rfl)
        (fun _ => rfl) (fun _ => by simp [crashedJob, activeStatuses]) rfl
      rwa [List.append_nil] at hfailed
  | leaveJob jobId =>
    refine ⟨h.waiting, List.Perm.trans ?_ h.running, h.own⟩
    by_cases he : ⟨jobId, true⟩ ∈ p.executions
    · exact (((List.perm_cons_erase he).filter (!·.settled)).map Execution.jobId).symm
    · change (List.map _ (List.filter _ (p.executions.erase ⟨jobId, true⟩))).Perm _
      rw [List.erase_of_not_mem he]
      exact List.Perm.refl _

theorem requeued_status (stale : List Job) (jobs : Table Job) (n : ℕ) :
    ((stale.foldl (fun jobs job => jobs.put { job with status := .queued }) jobs).get? n).map
        Job.status =
      (jobs.get? n).map fun job => if n ∈ stale.map Job.id then .queued else job.status := by
  induction stale generalizing jobs with
  | nil => simp
  | cons job stale ih =>
    have hput := Table.get?_put (t := jobs) (a := { job with status := .queued }) (n := n)
    change _ = if n = job.id then _ else _ at hput
    rw [List.foldl_cons, ih, hput, List.map_cons]
    by_cases hid : n = job.id
    · rw [if_pos hid, Option.map_map]
      exact congrArg (Option.map · (jobs.get? n)) (funext fun _ => by simp [hid])
    · simp [hid]

/-- After a crash everything active waits, in the table and in the queue. -/
theorem mem_idsIn_reconciled (jobs : Table Job) (status : JobStatus) (n : ℕ) :
    n ∈ idsIn (reconcileInProgress { jobs := jobs }).jobs status ↔ ∃ job, jobs.get? n = some job ∧
      (if job.status ∈ activeStatuses then .queued else job.status) = status := by
  rw [mem_idsIn]
  change ((List.foldl _ jobs _).get? n).map Job.status = _ ↔ _
  rw [requeued_status, Option.map_eq_some_iff]
  refine exists_congr fun job => and_congr_right fun hget => ?_
  have hstale : n ∈ (jobs.select (·.status ∈ activeStatuses)).map Job.id ↔
      job.status ∈ activeStatuses := by
    simp only [Table.select, List.mem_map, List.mem_filter, decide_eq_true_eq]
    constructor
    · rintro ⟨row, ⟨hrow, hs⟩, rfl⟩
      have hown := Table.mem_iff_get?.mp hrow
      cases hown.symm.trans hget
      exact hs
    · exact fun hs => ⟨job, ⟨Table.mem_of_get? hget, hs⟩, Table.id_of_get? hget⟩
  simp only [hstale]

theorem reconcileInProgress_accounted (jobs : Table Job) :
    Accounted ⟨reconcileInProgress { jobs := jobs }, [], []⟩ := by
  refine ⟨?_, ?_, fun n sourcePath trigger hown => by cases hown⟩
  · simp only [List.flatMap_nil, List.append_nil]
    refine (List.perm_ext_iff_of_nodup ((List.filter_sublist.map _).nodup jobs.nodup)
      (nodup_idsIn _ _)).mpr fun n => ?_
    rw [mem_idsIn_reconciled]
    simp only [List.mem_map, List.mem_filter, decide_eq_true_eq]
    constructor
    · rintro ⟨job, ⟨hrow, hs⟩, rfl⟩
      exact ⟨job, Table.mem_iff_get?.mp hrow, if_pos hs⟩
    · rintro ⟨job, hget, hs⟩
      refine ⟨job, ⟨Table.mem_of_get? hget, ?_⟩, Table.id_of_get? hget⟩
      by_contra hended
      rw [if_neg hended] at hs
      exact (not_mem_activeStatuses.mp hended).1 hs
  · have hnone : idsIn (reconcileInProgress { jobs := jobs }).jobs .running = [] := by
      rw [List.eq_nil_iff_forall_not_mem]
      intro n hn
      obtain ⟨job, -, hs⟩ := (mem_idsIn_reconciled jobs .running n).mp hn
      split at hs
      · cases hs
      · next hended => exact (not_mem_activeStatuses.mp hended).2 hs
    rw [hnone]
    exact List.Perm.refl _

theorem enqueueJob_accounted {d d' : Daemon} {sourcePath trigger : Str} {seriesId : Option ℤ}
    {mediaItem : Option MediaItemSnapshot} {maxAutoAttempts : Option ℤ} {queued : Bool}
    (h : Accounted ⟨d, [], []⟩)
    (he : enqueueJob d sourcePath seriesId trigger mediaItem maxAutoAttempts = .ok (queued, d')) :
    Accounted ⟨d', [], []⟩ := by
  obtain rfl | ⟨job, -, hqueued, -, -, -, rfl⟩ := enqueueJob_cases he
  · exact h
  · refine ⟨?_, ?_, fun n sourcePath trigger hown => by cases hown⟩
    · have hwaiting := h.waiting
      simp only [List.append_nil, List.flatMap_nil] at hwaiting ⊢
      rw [idsIn_insert, if_pos hqueued]
      exact hwaiting.append_right _
    · change (unsettled d).Perm _
      rw [idsIn_insert, hqueued, if_neg (by decide), List.append_nil]
      exact h.running

theorem start_accounted (d : Daemon) (ledger : LedgerSqla) : Accounted (Process.start d ledger) :=
  startup_induction (I := fun d => Accounted ⟨d, [], []⟩) d ledger
    (reconcileInProgress_accounted d.jobs) fun _ _ _ _ _ hd he => enqueueJob_accounted hd he

/-- In a run in which every call finds its own job, and every retry an ended one, the queue and the
tasks hold what the table has as queued, whenever no call is between its commit and its put. -/
theorem queue_agrees (d : Daemon) (ledger : LedgerSqla) (ops : List ProcessOp)
    (h : Along ProcessOp.step Unmixed (Process.start d ledger) ops) (before after : List ProcessOp)
    (hops : ops = before ++ after)
    (hquiet : Quiet (run ProcessOp.step (Process.start d ledger) before)) :
    InAgreement (run ProcessOp.step (Process.start d ledger) before) ∧
      ((run ProcessOp.step (Process.start d ledger) before).workQueue ++
        (run ProcessOp.step (Process.start d ledger) before).dispatched).Nodup := by
  subst hops
  have haccounted := invariant_run (I := Accounted) (G := Unmixed)
    (fun p op hp hop => step_accounted hp op hop) (start_accounted d ledger) (along_append.mp h).1
  have hagree := haccounted.waiting
  rw [show List.flatMap _ _ = [] from hquiet, List.append_nil] at hagree
  exact ⟨hagree, hagree.nodup_iff.mpr (nodup_idsIn _ _)⟩

/-- A call that nothing interrupts is the call in one step. -/
theorem run_uninterrupted (p : Process) (hcalls : p.calls = []) (sourcePath : Str)
    (seriesId : Option ℤ) (trigger : JobTrigger) (mediaItem : Option MediaItemSnapshot)
    (maxAutoAttempts : Option ℤ) :
    run ProcessOp.step p
        [.dedup sourcePath seriesId trigger.name mediaItem maxAutoAttempts,
          .countTerminal (.deduped sourcePath seriesId trigger.name mediaItem maxAutoAttempts),
          .insert (.admitted sourcePath seriesId trigger.name mediaItem),
          .find (.inserted p.jobs.nextId sourcePath trigger),
          .put (.putting (some p.jobs.nextId))] =
      { p with
        toDaemon := DaemonOp.step p.toDaemon
          (.enqueueJob sourcePath seriesId trigger.name mediaItem maxAutoAttempts) } := by
  obtain ⟨⟨jobs, workQueue, executions⟩, calls, dispatched⟩ := p
  cases hcalls
  have hname := JobTrigger.ofName_name trigger
  by_cases hactive : jobsIn jobs sourcePath activeStatuses = []
  · by_cases hexhausted : attemptsExhausted jobs sourcePath trigger.name maxAutoAttempts = true
    · simp [ProcessOp.step, ProcessOp.advance, DaemonOp.step, enqueueJob, hactive, hexhausted]
    · have hfound : ∀ json, waitingJob
          (jobs.insert { id := 0, sourcePath, seriesId, trigger, mediaItemJson := json }).2 sourcePath
            trigger =
          some (jobs.insert { id := 0, sourcePath, seriesId, trigger, mediaItemJson := json }).1 := by
        intro json
        have honly := @jobsIn_insert jobs
          { id := 0, sourcePath, seriesId, trigger, mediaItemJson := json } hactive rfl
        rw [waitingJob, honly]
        exact List.find?_cons_of_pos (decide_eq_true rfl)
      have hid : ∀ job : Job, (jobs.insert job).1.id = jobs.nextId := fun _ => rfl
      simp [ProcessOp.step, ProcessOp.advance, DaemonOp.step, enqueueJob, hactive, hexhausted, hname,
        hfound, hid]
  · simp [ProcessOp.step, DaemonOp.step, enqueueJob, hactive]

/-- Two polls of one path that look before either has inserted. -/
def twoPolls : List ProcessOp :=
  let path : Str := "/tv/a.srt"
  let asked : Call := .deduped path none "poll" none (some 5)
  let admitted : Call := .admitted path none "poll" none
  [.dedup path none "poll" none (some 5), .dedup path none "poll" none (some 5), .countTerminal asked,
    .countTerminal asked, .insert admitted, .insert admitted, .find (.inserted 1 path .poll),
    .find (.inserted 2 path .poll), .put (.putting (some 1)), .put (.putting (some 1))]

/-- The first job is queued twice and the second one is lost. -/
theorem two_polls_mixed :
    let p := run ProcessOp.step (Process.start {} LedgerSqla.empty) twoPolls
    Quiet p ∧ p.workQueue = [1, 1] ∧ idsIn p.jobs .queued = [1, 2] ∧ ¬ InAgreement p := by
  decide

/-- Two retries of one job that read it before either has reset it. -/
theorem two_retries_mixed :
    let p := run ProcessOp.step (Process.start failedOnce LedgerSqla.empty)
      [.readJob 1, .readJob 1, .resetJob (.retriable 1), .put (.putting (some 1)),
        .resetJob (.retriable 1), .put (.putting (some 1))]
    Quiet p ∧ p.workQueue = [1, 1] ∧ idsIn p.jobs .queued = [1] ∧ ¬ InAgreement p := by
  decide

/-- A poll and a retry of two jobs, one inside the other, and the tasks that follow. -/
def pollAndRetry : List ProcessOp :=
  let path : Str := "/tv/b.srt"
  [.dedup path none "poll" none (some 5), .readJob 1,
    .countTerminal (.deduped path none "poll" none (some 5)), .resetJob (.retriable 1),
    .insert (.admitted path none "poll" none), .put (.putting (some 1)), .dispatch,
    .find (.inserted 2 path .poll), .markRunning 1, .put (.putting (some 2)), .dispatch]

theorem poll_and_retry_agree :
    InAgreement (run ProcessOp.step (Process.start failedOnce LedgerSqla.empty) pollAndRetry) ∧
      ((run ProcessOp.step (Process.start failedOnce LedgerSqla.empty) pollAndRetry).workQueue ++
        (run ProcessOp.step (Process.start failedOnce LedgerSqla.empty)
          pollAndRetry).dispatched).Nodup :=
  queue_agrees failedOnce LedgerSqla.empty pollAndRetry (by decide) pollAndRetry []
    (List.append_nil _).symm (by decide)

end Trezarr.Web
