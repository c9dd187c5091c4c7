import Trezarr.Web.QueueAgreement

/-! The budget of automatic jobs of a source path, and the operations that can spend it. -/
namespace Trezarr.Web
open Text Runs

def automatic : List JobTrigger := [.poll, .webhook, .autoRetry]

def chargedStatuses : List JobStatus := [.queued, .running, .failed, .quarantined]

/-- The jobs of a path that count against its budget. -/
def charged (jobs : Table Job) (sourcePath : Str) (triggers : List JobTrigger) : List Job :=
  jobs.select fun job =>
    job.sourcePath = sourcePath ∧ job.trigger ∈ triggers ∧ job.status ∈ chargedStatuses

/-- The operations of a daemon with these settings. An execution raises behind its outcome only
where that was a quarantine, which only a retry lifts. -/
inductive Issued (settings : TrezarrSettings) (d : Daemon) : DaemonOp → Prop
  | poll (sourcePath : Str) (seriesId : Option ℤ) (mediaItem : Option MediaItemSnapshot) :
      Issued settings d (.enqueueJob sourcePath seriesId "poll" mediaItem
        (some settings.jobMaxAutoAttempts))
  | autoRetry (enabled : 0 < settings.jobAutoRetryMax) (sourcePath : Str) (seriesId : Option ℤ)
      (mediaItem : Option MediaItemSnapshot) :
      Issued settings d (.enqueueJob sourcePath seriesId "auto-retry" mediaItem
        (some settings.jobAutoRetryMax))
  | manual (sourcePath : Str) (seriesId : Option ℤ) (mediaItem : Option MediaItemSnapshot) :
      Issued settings d (.enqueueJob sourcePath seriesId "manual" mediaItem none)
  | retryJob (jobId : ℕ) : Issued settings d (.retryJob jobId)
  | startup (ledger : LedgerSqla) : Issued settings d (.startup ledger)
  | fetchJob (jobId : ℕ) (commits : Bool) : Issued settings d (.fetchJob jobId commits)
  | settleJob (jobId : ℕ) (result : Outcome) : Issued settings d (.settleJob jobId result)
  | failJob (jobId : ℕ) : Issued settings d (.failJob ⟨jobId, false⟩)
  | raised (jobId : ℕ)
      (quarantined : ∀ job ∈ d.jobs.get? jobId, job.status = .done → job.trigger = .manualRetry) :
      Issued settings d (.failJob ⟨jobId, true⟩)
  | leaveJob (execution : Execution) : Issued settings d (.leaveJob execution)

/-- A row with the number of claims to it: an automatic job has one at most, and none when done. -/
def Tame : Option Job → ℕ → Prop
  | none, claims => claims = 0
  | some job, claims =>
    job.trigger ∈ automatic → claims ≤ 1 ∧ (job.status = .done → claims = 0)

def AllTame (d : Daemon) : Prop := ∀ n, Tame (d.jobs.get? n) ((claimed d).count n)

/-- No path has more jobs of these triggers than `bound`. -/
def Within (triggers : List JobTrigger) (bound : ℤ) (jobs : Table Job) : Prop :=
  ∀ sourcePath, ((charged jobs sourcePath triggers).length : ℤ) ≤ bound

variable {settings : TrezarrSettings} {d d' : Daemon} {jobs : Table Job} {job old : Job}
  {sourcePath trigger : Str} {triggers : List JobTrigger} {bound : ℤ} {status : JobStatus}
  {jobId n claims : ℕ} {execution : Execution}

theorem mem_chargedStatuses : status ∈ chargedStatuses ↔ status ≠ .done := by
  cases status <;> decide

theorem settledJob_trigger (job : Job) (result : Outcome) :
    (settledJob job result).trigger = job.trigger := by
  unfold settledJob
  split <;> rfl

theorem Tame.mono {row : Option Job} (h : Tame row claims) (hle : n ≤ claims) : Tame row n := by
  cases row with
  | none => exact Nat.eq_zero_of_le_zero (hle.trans h.le)
  | some job =>
    exact fun ha => ⟨hle.trans (h ha).1, fun hd => Nat.eq_zero_of_le_zero (hle.trans ((h ha).2 hd).le)⟩

theorem AllTame.of_subperm (h : AllTame d) (hclaim : (claimed d').Subperm (claimed d))
    (hjobs : d'.jobs = d.jobs) : AllTame d' := by
  intro n
  rw [hjobs]
  exact (h n).mono (hclaim.count_le n)

/-- The claims stay, or one job gets a claim; its row is the only one that changes. -/
theorem AllTame.of_row (h : AllTame d)
    (hrows : ∀ m, m ≠ n → d'.jobs.get? m = d.jobs.get? m)
    (hclaims : ∀ m, m ≠ n → (claimed d').count m ≤ (claimed d).count m)
    (hown : Tame (d'.jobs.get? n) ((claimed d').count n)) : AllTame d' := by
  intro m
  by_cases hm : m = n
  · rw [hm]
    exact hown
  · rw [hrows m hm]
    exact (h m).mono (hclaims m hm)

theorem enqueueJob_allTame {seriesId : Option ℤ} {mediaItem : Option MediaItemSnapshot}
    {maxAutoAttempts : Option ℤ} {queued : Bool} (h : AllTame d)
    (he : enqueueJob d sourcePath seriesId trigger mediaItem maxAutoAttempts = .ok (queued, d')) :
    AllTame d' := by
  obtain rfl | ⟨job, -, hqueued, -, -, -, rfl⟩ := enqueueJob_cases he
  · exact h
  · have hclaim := (claimed_queue d (d.jobs.insert job).2 d.jobs.nextId).count_eq
    have hfree := h d.jobs.nextId
    rw [Table.get?_nextId] at hfree
    refine h.of_row (n := d.jobs.nextId) (fun m hm => Table.get?_insert_of_ne hm)
      (fun m hm => ?_) ?_
    · exact ((hclaim m).trans (List.count_cons_of_ne (Ne.symm hm))).le
    · change Tame ((d.jobs.insert job).2.get? d.jobs.nextId) _
      rw [Table.get?_insert_self, hclaim, List.count_cons_self, show List.count _ _ = 0 from hfree]
      refine fun _ => ⟨le_rfl, fun hd => ?_⟩
      rw [show (d.jobs.insert job).1.status = .queued from hqueued] at hd
      cases hd

theorem reconcileInProgress_allTame (jobs : Table Job) :
    AllTame (reconcileInProgress { jobs := jobs }) := by
  have hwaiting := (reconcileInProgress_accounted jobs).waiting
  simp only [List.flatMap_nil, List.append_nil] at hwaiting
  intro n
  have hcount : (claimed (reconcileInProgress { jobs := jobs })).count n =
      (idsIn (reconcileInProgress { jobs := jobs }).jobs .queued).count n := by
    rw [claimed, show (reconcileInProgress { jobs := jobs }).executions = [] from rfl]
    simp only [List.filter_nil, List.map_nil, List.append_nil]
    exact hwaiting.count_eq n
  rw [hcount]
  cases hget : (reconcileInProgress { jobs := jobs }).jobs.get? n with
  | none => exact List.count_eq_zero.mpr fun hn => by simpa [hget] using mem_idsIn.mp hn
  | some job =>
    refine fun _ => ⟨List.nodup_iff_count_le_one.mp (nodup_idsIn _ _) n, fun hd => ?_⟩
    refine List.count_eq_zero.mpr fun hn => ?_
    have hs := mem_idsIn.mp hn
    rw [hget, Option.map_some, hd] at hs
    cases hs

theorem startup_allTame (d : Daemon) (ledger : LedgerSqla) : AllTame (startup d ledger) :=
  startup_induction d ledger (reconcileInProgress_allTame d.jobs)
    fun _ _ _ _ _ hd he => enqueueJob_allTame hd he

theorem retryJob_allTame (h : AllTame d) (jobId : ℕ) :
    AllTame (DaemonOp.step d (.retryJob jobId)) := by
  obtain ⟨-, hstep⟩ | ⟨job, hget, -, -, reset, hid, -, -, htrigger, hstep⟩ := retryJob_cases d jobId
  · rw [hstep]
    exact h
  · obtain rfl : reset.id = jobId := hid.trans (Table.id_of_get? hget)
    have hclaim := (claimed_queue d (d.jobs.put reset) reset.id).count_eq
    rw [hstep]
    refine h.of_row (n := reset.id) (fun m hm => Table.get?_put_of_ne hm) (fun m hm => ?_) ?_
    · exact ((hclaim m).trans (List.count_cons_of_ne (Ne.symm hm))).le
    · change Tame ((d.jobs.put reset).get? (Keyed.id reset)) _
      rw [Table.get?_put_self hget]
      intro ha
      rw [htrigger] at ha
      exact absurd ha (by decide)

theorem fetchJob_allTame (h : AllTame d) (jobId : ℕ) (commits : Bool) :
    AllTame (DaemonOp.step d (.fetchJob jobId commits)) := by
  simp only [DaemonOp.step]
  split
  · exact h
  · next hq =>
    have hclaim := fun jobs => claimed_fetch (not_not.mp hq) jobs
    split
    · next hnone =>
      have hown := h jobId
      rw [hnone] at hown
      exact (List.count_eq_zero.mp hown (List.mem_append_left _ (not_not.mp hq))).elim
    · next job hget =>
      obtain rfl : job.id = jobId := Table.id_of_get? hget
      cases commits with
      | false => exact h.of_subperm (hclaim d.jobs).subperm rfl
      | true =>
        have hown := h job.id
        rw [hget] at hown
        refine h.of_row (n := job.id) (fun m hm => Table.get?_put_of_ne hm)
          (fun m _ => ((hclaim _).count_eq m).le) ?_
        change Tame ((d.jobs.put (startedJob job)).get? (Keyed.id (startedJob job))) _
        rw [Table.get?_put_self (a := startedJob job) hget]
        intro ha
        refine ⟨((hclaim _).count_eq job.id).trans_le (hown ha).1, fun hd => ?_⟩
        simp [startedJob] at hd

/-- An automatic job that somebody works on is not done. -/
theorem AllTame.live (h : AllTame d) (hn : n ∈ claimed d) (hget : d.jobs.get? n = some job)
    (hauto : job.trigger ∈ automatic) : job.status ≠ .done := by
  intro hd
  have hown := h n
  rw [hget] at hown
  exact List.count_eq_zero.mp ((hown hauto).2 hd) hn

/-- An execution that lets go of its job leaves nobody at it, if it is automatic. -/
theorem onJob_allTame {f : Job → Job} (rest : List Execution) (h : AllTame d)
    (he : ⟨jobId, false⟩ ∈ d.executions) (hid : ∀ job, (f job).id = job.id)
    (htrigger : ∀ job, (f job).trigger = job.trigger) (hrest : rest.filter (!·.settled) = []) :
    AllTame (onJob { d with executions := d.executions.erase ⟨jobId, false⟩ ++ rest } jobId f) := by
  have hclaimed : ∀ jobs, claimed { d with
      jobs := jobs, executions := d.executions.erase ⟨jobId, false⟩ ++ rest } =
        claimed { d with executions := d.executions.erase ⟨jobId, false⟩ } := by
    intro jobs
    simp only [claimed, List.filter_append, hrest, List.append_nil]
  have hperm : (claimed d).Perm
      (jobId :: claimed { d with executions := d.executions.erase ⟨jobId, false⟩ }) :=
    claimed_erase he
  have hsub : ∀ jobs, (claimed { d with
      jobs := jobs, executions := d.executions.erase ⟨jobId, false⟩ ++ rest }).Subperm
        (claimed d) := by
    intro jobs
    rw [hclaimed]
    exact (List.sublist_cons_self _ _).subperm.trans hperm.symm.subperm
  unfold onJob
  split
  · exact h.of_subperm (hsub d.jobs) rfl
  · next job hget =>
    have hown : Keyed.id (f job) = jobId := (hid job).trans (Table.id_of_get? hget)
    refine h.of_row (n := jobId) (fun m hm => Table.get?_put_of_ne (hown.symm ▸ hm))
      (fun m _ => (hsub _).count_le m) ?_
    have hrow : (d.jobs.put (f job)).get? jobId = some (f job) := by
      rw [← hown] at hget ⊢
      exact Table.get?_put_self hget
    change Tame ((d.jobs.put (f job)).get? jobId) _
    rw [hrow, hclaimed]
    intro hauto
    rw [htrigger] at hauto
    have hone := h jobId
    rw [show d.jobs.get? jobId = some job from hget] at hone
    have hcount := hperm.count_eq jobId
    rw [List.count_cons_self] at hcount
    have hle := (hone hauto).1
    exact ⟨by omega, fun _ => by omega⟩

/-- A job that is marked as failed behind its outcome keeps its claims. -/
theorem raised_allTame (h : AllTame d) (jobId : ℕ) :
    AllTame (DaemonOp.step d (.failJob ⟨jobId, true⟩)) := by
  simp only [DaemonOp.step]
  split
  · exact h
  · next he =>
    have hperm : ∀ jobs, (claimed { d with
        jobs := jobs, executions := d.executions.erase ⟨jobId, true⟩ }).Perm (claimed d) :=
      fun jobs => (claimed_erase (not_not.mp he)).symm
    unfold onJob
    split
    · exact h.of_subperm (hperm d.jobs).subperm rfl
    · next job hget =>
      obtain rfl : job.id = jobId := Table.id_of_get? hget
      refine h.of_row (n := job.id) (fun m hm => Table.get?_put_of_ne hm)
        (fun m _ => ((hperm _).count_eq m).le) ?_
      have hone := h job.id
      rw [show d.jobs.get? job.id = some job from hget] at hone
      change Tame ((d.jobs.put (crashedJob job)).get? (Keyed.id (crashedJob job))) _
      rw [Table.get?_put_self (a := crashedJob job) hget, (hperm _).count_eq]
      exact fun hauto => ⟨(hone hauto).1, fun hd => by cases hd⟩

theorem step_allTame (h : AllTame d) (op : DaemonOp) : AllTame (op.step d) := by
  cases op with
  | retryJob jobId => exact retryJob_allTame h jobId
  | fetchJob jobId commits => exact fetchJob_allTame h jobId commits
  | startup ledger => exact startup_allTame d ledger
  | enqueueJob sourcePath seriesId trigger mediaItem maxAutoAttempts =>
    simp only [DaemonOp.step]
    split
    · next he => exact enqueueJob_allTame h he
    · exact h
  | settleJob jobId result =>
    simp only [DaemonOp.step]
    split
    · exact h
    · next he =>
      exact onJob_allTame [⟨jobId, true⟩] h (not_not.mp he) (fun job => (settledJob_path job result).2)
        (fun job => settledJob_trigger job result) rfl
  | failJob execution =>
    obtain ⟨jobId, settled⟩ := execution
    cases settled with
    | true => exact raised_allTame h jobId
    | false =>
      simp only [DaemonOp.step]
      split
      · exact h
      · next he =>
        have hfailed := onJob_allTame (f := crashedJob) [] h (not_not.mp he) (fun _ => rfl)
          (fun _ => rfl) rfl
        rwa [List.append_nil] at hfailed
  | leaveJob execution =>
    by_cases he : execution ∈ d.executions
    · exact h.of_subperm ((List.sublist_append_right _ _).subperm.trans
        (claimed_erase he).symm.subperm) rfl
    · simp only [DaemonOp.step, List.erase_of_not_mem he]
      exact h

/-- A row that is rewritten counts only where it did before. -/
theorem Within.put (h : Within triggers bound jobs) (hget : jobs.get? job.id = some old)
    (hpath : job.sourcePath = old.sourcePath)
    (hcharged : job.trigger ∈ triggers → old.trigger ∈ triggers ∧ old.status ≠ .done) :
    Within triggers bound (jobs.put job) := by
  intro path
  have hcount := Table.length_select_put hget fun job =>
    decide (job.sourcePath = path ∧ job.trigger ∈ triggers ∧ job.status ∈ chargedStatuses)
  simp only [decide_eq_true_eq] at hcount
  change (charged (jobs.put job) path triggers).length + _ =
    (charged jobs path triggers).length + _ at hcount
  have hbefore := h path
  by_cases hnew : job.sourcePath = path ∧ job.trigger ∈ triggers ∧ job.status ∈ chargedStatuses
  · obtain ⟨htrigger, hlive⟩ := hcharged hnew.2.1
    have hold : old.sourcePath = path ∧ old.trigger ∈ triggers ∧ old.status ∈ chargedStatuses :=
      ⟨hpath.symm.trans hnew.1, htrigger, mem_chargedStatuses.mpr hlive⟩
    rw [if_pos hold, if_pos hnew] at hcount
    omega
  · rw [if_neg hnew] at hcount
    omega

/-- The charged jobs of a path without active ones have all failed or been quarantined. -/
theorem charged_le_terminal (triggers : List JobTrigger)
    (hnone : jobsIn jobs sourcePath activeStatuses = []) :
    (charged jobs sourcePath triggers).length ≤ (jobsIn jobs sourcePath terminalStatuses).length := by
  rw [charged, jobsIn, Table.select, Table.select, ← List.countP_eq_length_filter,
    ← List.countP_eq_length_filter]
  refine List.countP_mono_left fun job hjob hcharged => ?_
  simp only [decide_eq_true_eq] at hcharged ⊢
  refine ⟨hcharged.1, ?_⟩
  have hidle : job.status ∉ activeStatuses := by
    intro hactive
    have hmem : job ∈ jobsIn jobs sourcePath activeStatuses :=
      List.mem_filter.mpr ⟨hjob, decide_eq_true ⟨hcharged.1, hactive⟩⟩
    rw [hnone] at hmem
    cases hmem
  have hcases := hcharged.2.2
  revert hidle hcases
  cases job.status <;> decide

/-- A new job counts where its trigger does, and then the cap had room for it. -/
theorem Within.enqueueJob {seriesId : Option ℤ} {mediaItem : Option MediaItemSnapshot}
    {maxAutoAttempts : Option ℤ} {queued : Bool} (h : Within triggers bound d.jobs)
    (hcap : ∀ origin ∈ triggers, JobTrigger.ofName trigger = some origin →
      trigger ∈ autoTriggers ∧ ∃ cap, maxAutoAttempts = some cap ∧ cap ≤ bound)
    (he : enqueueJob d sourcePath seriesId trigger mediaItem maxAutoAttempts = .ok (queued, d')) :
    Within triggers bound d'.jobs := by
  obtain rfl | ⟨job, rfl, hqueued, hnone, horigin, hroom, rfl⟩ := enqueueJob_cases he
  · exact h
  · intro path
    have hcount := Table.length_select_insert (t := d.jobs) (a := job) fun job =>
      decide (job.sourcePath = path ∧ job.trigger ∈ triggers ∧ job.status ∈ chargedStatuses)
    simp only [decide_eq_true_eq] at hcount
    change (charged (d.jobs.insert job).2 path triggers).length =
      (charged d.jobs path triggers).length + _ at hcount
    have hbefore := h path
    by_cases hnew : (d.jobs.insert job).1.sourcePath = path ∧
        (d.jobs.insert job).1.trigger ∈ triggers ∧ (d.jobs.insert job).1.status ∈ chargedStatuses
    · obtain ⟨rfl, htrigger, -⟩ := hnew
      obtain ⟨hauto, cap, rfl, hcap⟩ := hcap _ htrigger horigin
      have hterminal := charged_le_terminal triggers hnone
      simp only [attemptsExhausted, hauto, decide_true, Bool.true_and, decide_eq_false_iff_not,
        not_le] at hroom
      change ((charged (d.jobs.insert job).2 job.sourcePath triggers).length : ℤ) ≤ bound
      change (charged (d.jobs.insert job).2 job.sourcePath triggers).length =
        (charged d.jobs job.sourcePath triggers).length + _ at hcount
      split at hcount <;> omega
    · rw [if_neg hnew] at hcount
      change ((charged (d.jobs.insert job).2 path triggers).length : ℤ) ≤ bound
      omega

/-- A job that ends, or fails, counts only where it did before. -/
theorem Within.onJob {f : Job → Job} (h : Within triggers bound d.jobs)
    (hid : ∀ job, (f job).id = job.id) (hpath : ∀ job, (f job).sourcePath = job.sourcePath)
    (htrigger : ∀ job, (f job).trigger = job.trigger)
    (hlive : ∀ job, d.jobs.get? jobId = some job → job.trigger ∈ triggers → job.status ≠ .done) :
    Within triggers bound (onJob d jobId f).jobs := by
  unfold Web.onJob
  split
  · exact h
  · next job hget =>
    have hown : d.jobs.get? (f job).id = some job := by
      rw [hid]
      exact Table.get?_id hget
    refine h.put hown (hpath job) fun ht => ?_
    rw [htrigger] at ht
    exact ⟨ht, hlive job hget ht⟩

section Step

variable (hauto : ∀ origin ∈ triggers, origin ∈ automatic)
  (hpoll : .poll ∈ triggers → settings.jobMaxAutoAttempts ≤ bound)
  (hretry : .autoRetry ∈ triggers → settings.jobAutoRetryMax ≤ bound)

include hauto

theorem startup_within (h : Within triggers bound d.jobs) (ledger : LedgerSqla) :
    Within triggers bound (startup d ledger).jobs := by
  refine startup_induction (I := fun d => Within triggers bound d.jobs) d ledger ?_ ?_
  · refine reconcileInProgress_induction (fun jobs job old hjobs hget hpath htrigger hactive _ => ?_) h
    refine hjobs.put hget hpath fun ht => ⟨htrigger ▸ ht, ?_⟩
    rintro hd
    rw [hd] at hactive
    exact absurd hactive (by decide)
  · intro d d' sourcePath seriesId queued hd he
    refine hd.enqueueJob (fun origin ho hname => ?_) he
    have hreconcile : JobTrigger.startupReconcile = origin :=
      Option.some.inj ((JobTrigger.ofName_name .startupReconcile).symm.trans hname)
    exact absurd (hauto _ (hreconcile ▸ ho)) (by decide)

theorem retryJob_within (h : Within triggers bound d.jobs) (jobId : ℕ) :
    Within triggers bound (DaemonOp.step d (.retryJob jobId)).jobs := by
  obtain ⟨-, hstep⟩ | ⟨job, hget, -, -, reset, hid, hpath, -, htrigger, hstep⟩ :=
    retryJob_cases d jobId
  · rw [hstep]
    exact h
  · obtain rfl : reset.id = jobId := hid.trans (Table.id_of_get? hget)
    rw [hstep]
    refine h.put hget hpath fun ht => ?_
    rw [htrigger] at ht
    exact absurd (hauto _ ht) (by decide)

theorem fetchJob_within (h : Within triggers bound d.jobs) (htame : AllTame d) (jobId : ℕ)
    (commits : Bool) : Within triggers bound (DaemonOp.step d (.fetchJob jobId commits)).jobs := by
  simp only [DaemonOp.step]
  split
  · exact h
  · next hq =>
    split
    · exact h
    · next job hget =>
      cases commits with
      | false => exact h
      | true =>
        have hown : d.jobs.get? (startedJob job).id = some job := Table.get?_id hget
        refine h.put hown rfl fun ht => ⟨ht, ?_⟩
        exact htame.live (List.mem_append_left _ (not_not.mp hq)) hget (hauto _ ht)

include hpoll hretry

/-- No operation brings more jobs of these triggers than their caps allow. -/
theorem step_within (h : Within triggers bound d.jobs) (htame : AllTame d) (op : DaemonOp)
    (hop : Issued settings d op) : Within triggers bound (op.step d).jobs := by
  have hlive : ∀ jobId job, ⟨jobId, false⟩ ∈ d.executions → d.jobs.get? jobId = some job →
      job.trigger ∈ triggers → job.status ≠ .done := by
    intro jobId job he hget ht
    have hclaimed : jobId ∈ claimed d :=
      List.mem_append_right _ (List.mem_map_of_mem (List.mem_filter.mpr ⟨he, rfl⟩))
    exact htame.live hclaimed hget (hauto _ ht)
  cases hop with
  | poll sourcePath seriesId mediaItem =>
    simp only [DaemonOp.step]
    split
    · next he =>
      refine h.enqueueJob (fun origin ho hname => ⟨by decide, _, rfl, hpoll ?_⟩) he
      have horigin : JobTrigger.poll = origin :=
        Option.some.inj ((JobTrigger.ofName_name .poll).symm.trans hname)
      exact horigin ▸ ho
    · exact h
  | autoRetry enabled sourcePath seriesId mediaItem =>
    simp only [DaemonOp.step]
    split
    · next he =>
      refine h.enqueueJob (fun origin ho hname => ⟨by decide, _, rfl, hretry ?_⟩) he
      have horigin : JobTrigger.autoRetry = origin :=
        Option.some.inj ((JobTrigger.ofName_name .autoRetry).symm.trans hname)
      exact horigin ▸ ho
    · exact h
  | manual sourcePath seriesId mediaItem =>
    simp only [DaemonOp.step]
    split
    · next he =>
      refine h.enqueueJob (fun origin ho hname => ?_) he
      have horigin : JobTrigger.manual = origin :=
        Option.some.inj ((JobTrigger.ofName_name .manual).symm.trans hname)
      exact absurd (hauto _ (horigin ▸ ho)) (by decide)
    · exact h
  | retryJob jobId => exact retryJob_within hauto h jobId
  | startup ledger => exact startup_within hauto h ledger
  | fetchJob jobId commits => exact fetchJob_within hauto h htame jobId commits
  | settleJob jobId result =>
    simp only [DaemonOp.step]
    split
    · exact h
    · next he =>
      exact Within.onJob h (fun job => (settledJob_path job result).2)
        (fun job => (settledJob_path job result).1) (fun job => settledJob_trigger job result)
        fun job hget ht => hlive jobId job (not_not.mp he) hget ht
  | failJob jobId =>
    simp only [DaemonOp.step]
    split
    · exact h
    · next he =>
      exact Within.onJob h (fun _ => rfl) (fun _ => rfl) (fun _ => rfl)
        fun job hget ht => hlive jobId job (not_not.mp he) hget ht
  | raised jobId quarantined =>
    simp only [DaemonOp.step]
    split
    · exact h
    · refine Within.onJob h (fun _ => rfl) (fun _ => rfl) (fun _ => rfl) fun job hget ht hd => ?_
      have hretried := quarantined job hget hd
      rw [hretried] at ht
      exact absurd (hauto _ ht) (by decide)
  | leaveJob execution => exact h

theorem run_within (hbound : 0 ≤ bound) (ops : List DaemonOp)
    (h : Along DaemonOp.step (Issued settings) {} ops) :
    Within triggers bound (run DaemonOp.step {} ops).jobs := by
  have hstart : AllTame {} ∧ Within triggers bound (Table.empty : Table Job) :=
    ⟨fun n => rfl, fun path => hbound⟩
  have hend := invariant_run (I := fun d => AllTame d ∧ Within triggers bound d.jobs)
    (G := Issued settings) (fun d op hd hop => ⟨step_allTame hd.1 op,
      step_within hauto hpoll hretry hd.2 hd.1 op hop⟩) hstart h
  exact hend.2

end Step

/-- In every run from no jobs, a path has no more automatic jobs that are not done than the larger
cap, and no more automatic retries among them than theirs. A cap below zero allows none. -/
theorem retry_budget (settings : TrezarrSettings) (ops : List DaemonOp)
    (h : Along DaemonOp.step (Issued settings) {} ops) (sourcePath : Str) :
    ((charged (run DaemonOp.step {} ops).jobs sourcePath automatic).length : ℤ) ≤
        max 0 (max settings.jobMaxAutoAttempts settings.jobAutoRetryMax) ∧
      ((charged (run DaemonOp.step {} ops).jobs sourcePath [.autoRetry]).length : ℤ) ≤
        max 0 settings.jobAutoRetryMax := by
  constructor
  · refine run_within (fun _ ho => ho) (fun _ => ?_) (fun _ => ?_) (le_max_left _ _) ops h sourcePath
    · exact le_max_of_le_right (le_max_left _ _)
    · exact le_max_of_le_right (le_max_right _ _)
  · refine run_within (fun _ ho => ?_) (fun ho => ?_) (fun _ => le_max_right _ _) (le_max_left _ _)
      ops h sourcePath
    · rw [List.mem_singleton.mp ho]
      decide
    · exact absurd ho (by decide)

/-- A poll whose job is quarantined, its automatic retry, and a poll that finds the budget spent. -/
def quarantinedTwice : List DaemonOp :=
  let missing : Outcome := { status := .quarantined, reason := some "Missing line [3]" }
  [.enqueueJob "/tv/a.srt" none "poll" none (some 5), .fetchJob 1 true, .settleJob 1 missing,
    .enqueueJob "/tv/a.srt" none "auto-retry" none (some 2), .fetchJob 2 true, .settleJob 2 missing,
    .enqueueJob "/tv/a.srt" none "auto-retry" none (some 2)]

theorem quarantined_twice :
    ((charged (run DaemonOp.step {} quarantinedTwice).jobs "/tv/a.srt" automatic).length : ℤ) ≤
        max 0 (max 5 2) ∧
      ((charged (run DaemonOp.step {} quarantinedTwice).jobs "/tv/a.srt" [.autoRetry]).length : ℤ) ≤
        max 0 2 :=
  retry_budget {} quarantinedTwice
    ⟨.poll _ _ _, .fetchJob _ _, .settleJob _ _, .autoRetry (by decide) _ _ _, .fetchJob _ _,
      .settleJob _ _, .autoRetry (by decide) _ _ _, trivial⟩ "/tv/a.srt"

/-- Caps below zero, which the settings take, are exceeded by no jobs at all. -/
theorem negative_caps :
    let settings : TrezarrSettings := { jobMaxAutoAttempts := -1, jobAutoRetryMax := -1 }
    Along DaemonOp.step (Issued settings) {} [] ∧
      ¬ ((charged (run DaemonOp.step {} []).jobs "/tv/a.srt" automatic).length : ℤ) ≤
        max settings.jobMaxAutoAttempts settings.jobAutoRetryMax ∧
      ¬ ((charged (run DaemonOp.step {} []).jobs "/tv/a.srt" [.autoRetry]).length : ℤ) ≤
        settings.jobAutoRetryMax :=
  ⟨trivial, by decide, by decide⟩

end Trezarr.Web
