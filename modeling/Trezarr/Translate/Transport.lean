import Trezarr.Discover.Gap
import Trezarr.Translate.Series
import Trezarr.Translate.Verdict

/-! What a failing endpoint leaves behind: a source that is tried again, or one in quarantine. -/
namespace Trezarr
open Text Fallible LedgerProtocol LawfulLedger

/-- No call failed with an error of the transport. -/
def NoTransport (failures : List PyError) : Prop := ∀ text, .apiError text ∉ failures

theorem NoTransport.nil : NoTransport [] := fun _ => List.not_mem_nil

theorem NoTransport.append {failures failures' : List PyError} (h : NoTransport failures)
    (h' : NoTransport failures') : NoTransport (failures ++ failures') := by
  intro text hmem
  rcases List.mem_append.mp hmem with hmem | hmem
  · exact h text hmem
  · exact h' text hmem

section Tasks

variable {α : Type} {task : Called α} {tasks : List (Called α)}

/-- What the endpoint raises ends the task. -/
def Called.Raises (task : Called α) : Prop :=
  task.failures = [] ∨ ∃ err, task.result = .error err ∧ task.failures = [err]

theorem Called.Raises.of_ok (h : task.Raises) {a : α} (hok : task.result = .ok a) :
    task.failures = [] := by
  rcases h with hnil | ⟨err, herr, _⟩
  · exact hnil
  · cases hok.symm.trans herr

theorem Called.Raises.of_error (h : task.Raises) {err : PyError}
    (herr : task.result = .error err) : ∀ failure ∈ task.failures, failure = err := by
  intro failure hmem
  rcases h with hnil | ⟨err', herr', hone⟩
  · rw [hnil] at hmem
    cases hmem
  · rw [hone] at hmem
    cases herr.symm.trans herr'
    exact List.mem_singleton.mp hmem

theorem correctionLoop_raises {call : ℕ → List Message → Except PyError Str}
    {cues : List SubLine} {remaining : ℕ} : ∀ {attempt : ℕ} {messages : List Message},
      (correctionLoop call cues remaining attempt messages).Raises := by
  induction remaining with
  | zero =>
    intro attempt messages
    exact .inl rfl
  | succ remaining ih =>
    intro attempt messages
    simp only [correctionLoop]
    split
    next err _ => exact .inr ⟨err, rfl, rfl⟩
    next =>
      split
      next => exact .inl rfl
      next =>
        split
        next => exact .inl rfl
        next => exact ih
      next => exact .inl rfl

theorem attributeBatch_raises (mode : Str)
    (calls : StructuredCalls AttributionRequest BatchAttribution) (i : ℕ) (batch : Batch)
    (bible : SeriesBibleDTO) (settings : TrezarrSettings) :
    (attributeBatch mode calls i batch bible settings).Raises := by
  unfold attributeBatch
  split
  next => exact .inl rfl
  next =>
    split
    next => exact .inl rfl
    next =>
      split
      next err _ => exact .inr ⟨err, rfl, rfl⟩
      next => exact .inl rfl
      next => split <;> exact .inl rfl

theorem gather_ok {schedule : Schedule} {results : List α} (htasks : ∀ task ∈ tasks, task.Raises)
    (h : (gather schedule tasks).result = .ok results) : (gather schedule tasks).failures = [] := by
  unfold gather at h ⊢
  cases hresults : tasks.mapM Called.result with
  | error err =>
    rw [hresults] at h
    cases h
  | ok results' =>
    apply List.flatMap_eq_nil_iff.mpr
    intro task htask
    obtain ⟨a, ha⟩ := ok_of_mapM hresults task htask
    exact (htasks task htask).of_ok ha

/-- What the endpoint raised in a group is part of what the group raises. -/
theorem gather_error {schedule : Schedule} {errors : List PyError}
    (htasks : ∀ task ∈ tasks, task.Raises) (h : (gather schedule tasks).result = .error errors) :
    ∀ failure ∈ (gather schedule tasks).failures, failure ∈ errors := by
  unfold gather at h ⊢
  cases hresults : tasks.mapM Called.result with
  | ok results =>
    rw [hresults] at h
    cases h
  | error err =>
    rw [hresults] at h
    intro failure hmem
    obtain ⟨i, hi, hmem⟩ := List.mem_flatMap.mp hmem
    rw [← Except.error.inj h]
    refine List.mem_filterMap.mpr ⟨i, hi, ?_⟩
    cases htask : tasks[i]? with
    | none =>
      rw [htask] at hmem
      cases hmem
    | some task =>
      rw [htask] at hmem
      rcases htasks task (List.mem_of_getElem? htask) with hnil | ⟨err', herr, hone⟩
      · have hfailures : failure ∈ task.failures := hmem
        rw [hnil] at hfailures
        cases hfailures
      · have hfailures : failure ∈ task.failures := hmem
        rw [hone] at hfailures
        rw [List.mem_singleton.mp hfailures]
        show errorOf task = some err'
        unfold errorOf
        rw [herr]

end Tasks

/-- Errors of rejected replies only. -/
theorem noTransport_of_others {errors : List PyError} (h : othersOf errors = []) :
    NoTransport errors := by
  intro text hmem
  have hother : .apiError text ∈ othersOf errors := List.mem_filter.mpr ⟨hmem, rfl⟩
  rw [h] at hother
  cases hother

theorem repairFailingCues_noTransport {llm : LLMClient} {round : ℕ} {failing : List ℕ}
    {source translated : SubDoc} {check : ℕ} {settings : TrezarrSettings} {ctx : Context}
    {lines : Option (List SubLine)}
    (h : (repairFailingCues llm round failing source translated check settings ctx).result =
      .ok lines) :
    NoTransport (repairFailingCues llm round failing source translated check settings ctx).failures := by
  unfold repairFailingCues at h ⊢
  split at h
  next => exact .nil
  next => exact .nil
  next cues _ _ =>
    have hraises : (translateBatch llm (.repair round) settings ⟨cues.map Prod.snd, [], [], none⟩
        (repairHints ctx (cues.map Prod.fst)) ctx.glossary ctx.register
        (repairDirective check)).Raises := correctionLoop_raises
    dsimp only at h ⊢
    split at h
    next defect hbatch =>
      intro text hmem
      cases hraises.of_error hbatch _ hmem
    next => cases h
    next texts hbatch =>
      dsimp only
      rw [hraises.of_ok hbatch]
      exact .nil

theorem Gate.loop_noTransport {gate : Gate}
    (hrepair : ∀ round doc failure failing lines,
      (gate.repair round doc failure failing).result = .ok lines →
        NoTransport (gate.repair round doc failure failing).failures) {budget : ℕ} :
    ∀ {round : ℕ} {doc : SubDoc} {failure : GateFailure},
      (gate.loop budget round doc).outcome = .rejected failure →
        NoTransport (gate.loop budget round doc).failures := by
  induction budget with
  | zero =>
    intro round doc failure _
    simp only [loop]
    split <;> exact .nil
  | succ budget ih =>
    intro round doc failure h
    simp only [loop] at h ⊢
    split at h
    next => cases h
    next => cases h
    next =>
      split at h
      next => exact .nil
      next =>
        split at h
        next => cases h
        next hrepaired => exact hrepair _ _ _ _ _ hrepaired
        next hrepaired => exact (hrepair _ _ _ _ _ hrepaired).append (ih h)

section Passes

variable {run : SeriesRun} {settings : TrezarrSettings} {source : SubDoc}

theorem analyzeChunks_noTransport {calls : StructuredCalls AnalysisRequest BibleAnalysis}
    {request : List Str → AnalysisRequest} {chunks : List (List Str × ℕ)} :
    ∀ {tally : Tally}, NoTransport tally.failures →
      (analyzeChunks calls request chunks tally).1 = .ok () →
        NoTransport (analyzeChunks calls request chunks tally).2.failures := by
  induction chunks with
  | nil => exact fun h _ => h
  | cons chunk chunks ih =>
    obtain ⟨texts, i⟩ := chunk
    intro tally htally h
    by_cases hempty : texts = []
    · simp only [analyzeChunks, if_pos hempty] at h ⊢
      exact ih htally h
    · simp only [analyzeChunks, if_neg hempty] at h ⊢
      rcases hcall : calls.call i (request texts) with err | ⟨part⟩ | ⟨text⟩
      · rw [hcall] at h
        cases err with
        | validationError =>
          refine ih (htally.append ?_) h
          intro text hmem
          cases List.mem_singleton.mp hmem
        | _ => cases h
      · rw [hcall] at h
        exact ih htally h
      · rw [hcall] at h
        dsimp only at h ⊢
        cases hvalid : calls.validateJson text with
        | some part =>
          rw [hvalid] at h
          exact ih htally h
        | none =>
          rw [hvalid] at h
          exact ih htally h

/-- An analysis that ends by itself, well or badly, met no failing call. -/
theorem analyzeFile_noTransport {mode : Str}
    {calls : StructuredCalls AnalysisRequest BibleAnalysis} {bible : SeriesBibleDTO}
    {arrMetadata : ArrMetadata} {episodeKey : Str}
    (h : ∀ err, (analyzeFile mode calls source bible arrMetadata settings episodeKey).result ≠
      .error (.python err)) :
    NoTransport (analyzeFile mode calls source bible arrMetadata settings episodeKey).failures := by
  unfold analyzeFile at h ⊢
  split
  next => exact .nil
  next henabled =>
    rw [if_neg henabled] at h
    split
    next => exact .nil
    next hmode =>
      rw [if_neg hmode] at h
      dsimp only at h ⊢
      split at h
      next err tally _ => exact absurd rfl (h err)
      next tally hchunks =>
        have htally := analyzeChunks_noTransport .nil (congrArg Prod.fst hchunks)
        rw [hchunks] at htally
        split <;> exact htally

theorem attributions_noTransport {bible : SeriesBibleDTO}
    {results : List (List LineAttribution)}
    (h : (run.attributions settings source bible).result = .ok results) :
    (run.attributions settings source bible).failures = [] := by
  unfold SeriesRun.attributions at h ⊢
  split
  next => rfl
  next henabled =>
    rw [if_neg henabled] at h
    split
    next => rfl
    next hbatches =>
      rw [hbatches] at h
      apply gather_ok ?_ h
      intro task htask
      obtain ⟨⟨batch, i⟩, _, rfl⟩ := List.mem_map.mp htask
      exact attributeBatch_raises _ _ _ _ _ _

theorem reconcile_noTransport {s : Store} {series : Series} {failures : List PyError}
    (hfailures : NoTransport failures)
    (h : ∀ err, (run.reconcile settings source s series failures).analysis ≠ .raised err) :
    NoTransport (run.reconcile settings source s series failures).failures := by
  unfold SeriesRun.reconcile at h ⊢
  split at h
  next err _ => exact absurd rfl (h _)
  next bible _ =>
    dsimp only at h ⊢
    split at h
    next => exact absurd rfl (h _)
    next results hresults =>
      rw [attributions_noTransport hresults, List.append_nil]
      split <;> exact hfailures

/-- Unless the passes before translation raise, none of their calls failed. -/
theorem passes_noTransport
    (h : ∀ err, (run.passes settings source).analysis ≠ .raised err) :
    NoTransport (run.passes settings source).failures := by
  unfold SeriesRun.passes at h ⊢
  split at h
  next => exact .nil
  next series s _ =>
    split at h
    next => exact .nil
    next bible _ =>
      have hanalyzed := @analyzeFile_noTransport settings source run.client.mode
        run.client.analysis bible run.arrMetadata run.episodeKey
      dsimp only at h ⊢
      split at h
      next err _ => exact absurd rfl (h err)
      next herr => 
        apply hanalyzed
        intro err
        rw [herr]
        nofun
      next analysis hok =>
        have hnone := hanalyzed (by rw [hok]; nofun)
        split at h
        next => exact hnone
        next => exact reconcile_noTransport hnone h

end Passes

/-- The passes before translation raise what a failing call raises in them. -/
def Env.PassesRaise (env : Env) : Prop :=
  ∀ source, (∀ err, env.analyze source ≠ .raised err) → NoTransport (env.analysisFailures source)

theorem forSeries_passesRaise (env : Env) (series : Option SeriesRun) :
    (env.forSeries series).PassesRaise := by
  intro source h
  cases series with
  | none => exact .nil
  | some run =>
    simp only [Env.forSeries] at h ⊢
    exact passes_noTransport h

section Run

variable {L : Type} [LedgerProtocol L] {env : Env} {job : Job} {w : World L}

/-- The run ends in quarantine without raising. -/
def Run.EndsShelved (run : Run L) : Prop :=
  ∃ quarantinePath reason, run.outcome = .ok (.quarantined quarantinePath reason)

theorem quarantine_failures (reason : Reason) (failing : List ℕ) :
    (quarantine env job w reason failing).failures = [] := by
  unfold quarantine recordEntry
  split
  next => rfl
  next => dsimp only; split <;> rfl

theorem finish_endsShelved (doc : SubDoc) : ¬ (finish env job w doc).EndsShelved := by
  rintro ⟨quarantinePath, reason, h⟩
  unfold finish recordEntry at h
  split at h
  next => cases h
  next =>
    dsimp only at h
    split at h <;> cases h

theorem deliver_noTransport {ctx : Context} {source : SubDoc} {results : List (List Str)}
    (h : (deliver env job w ctx source results).EndsShelved) :
    NoTransport (deliver env job w ctx source results).failures := by
  unfold deliver at h ⊢
  cases hprepare : prepare env ctx source results with
  | error err =>
    rw [hprepare] at h
    obtain ⟨_, _, ⟨⟩⟩ := h
  | ok translated =>
    rw [hprepare] at h
    dsimp only at h ⊢
    split at h
    next => exact absurd h (finish_endsShelved _)
    next => obtain ⟨_, _, ⟨⟩⟩ := h
    next failure hrejected =>
      refine Gate.loop_noTransport ?_ hrejected
      intro round doc failure failing lines hlines
      exact repairFailingCues_noTransport hlines

theorem failBatches_endsShelved {errors : List PyError}
    (h : (failBatches env job w errors).EndsShelved) : othersOf errors = [] := by
  unfold failBatches at h
  split at h
  next => obtain ⟨_, _, ⟨⟩⟩ := h
  next =>
    dsimp only at h
    split at h
    next => obtain ⟨_, _, ⟨⟩⟩ := h
    next hnot =>
      obtain ⟨quarantinePath, reason, houtcome⟩ := h
      cases hothers : othersOf errors with
      | nil => rfl
      | cons err others => exact absurd hothers (hnot _ _ _ houtcome)

theorem translate_noTransport {source : SubDoc} {batches : List Batch} {ctx : Context}
    (h : (translate env job w source batches ctx).EndsShelved) :
    NoTransport (translate env job w source batches ctx).failures := by
  have htasks : ∀ task ∈ translateBatches env.llm env.settings ctx batches, task.Raises := by
    intro task htask
    obtain ⟨_, _, rfl⟩ := List.mem_map.mp htask
    exact correctionLoop_raises
  unfold translate at h ⊢
  dsimp only at h ⊢
  split at h
  next errors herrors =>
    have hnone := noTransport_of_others (failBatches_endsShelved h)
    intro text hmem
    exact hnone text (gather_error htasks herrors _ hmem)
  next results hresults =>
    dsimp only
    rw [gather_ok htasks hresults]
    exact deliver_noTransport h

theorem readAndTranslate_noTransport (hpasses : env.PassesRaise)
    (h : (readAndTranslate env job w).EndsShelved) :
    NoTransport (readAndTranslate env job w).failures := by
  unfold readAndTranslate at h ⊢
  split
  next => rw [quarantine_failures]; exact .nil
  next source hread =>
    rw [hread] at h
    dsimp only at h
    split
    next => rw [quarantine_failures]; exact .nil
    next batches hbatches =>
      rw [hbatches] at h
      have hends : (afterAnalysis env job w source batches (env.analyze source)).EndsShelved := h
      have hraise := hpasses source
      show NoTransport (env.analysisFailures source ++
        (afterAnalysis env job w source batches (env.analyze source)).failures)
      cases hanalysis : env.analyze source with
      | raised err =>
        rw [hanalysis] at hends
        obtain ⟨_, _, ⟨⟩⟩ := hends
      | failed err =>
        rw [hanalysis] at hraise
        refine (hraise nofun).append ?_
        simp only [afterAnalysis, quarantine_failures]
        exact .nil
      | bypassed =>
        rw [hanalysis] at hends hraise
        exact (hraise nofun).append (translate_noTransport hends)
      | ready ctx =>
        rw [hanalysis] at hends hraise
        exact (hraise nofun).append (translate_noTransport hends)

theorem translateFile_noTransport {path : Path} (hpasses : env.PassesRaise)
    (h : (translateFile env path w).EndsShelved) :
    NoTransport (translateFile env path w).failures := by
  unfold translateFile start at h ⊢
  split
  next => exact .nil
  next => exact .nil
  next job hjob =>
    rw [hjob] at h
    dsimp only at h
    split
    next => exact .nil
    next ledger hrecord =>
      rw [hrecord] at h
      exact readAndTranslate_noTransport hpasses h

end Run

section Safety

variable {L : Type} [LawfulLedger L] (env : Env) (path : Path) (w : World L)

/-- The source can be tried again as it is: nothing but its row tells of the run. -/
structure LeftForRetry (run : Run L) : Prop where
  artifacts : run.world.artifacts = w.artifacts
  fs : run.world.fs = w.fs
  row : ∃ entry, row? run.world.ledger (w.fs.resolve path).str = some entry ∧
    entry.status = .inProgress
  eligible : ∃ v, isEligible env.contentHash run.world.fs (w.fs.resolve path) run.world.ledger =
    .ok v ∧ v.eligible = true

/-- Transport failures never quarantine. -/
structure TransportSafe : Prop where
  raised : ∀ err, (translateFile env path w).outcome = .error err →
    LeftForRetry env path w (translateFile env path w)
  quarantined : (translateFile env path w).EndsShelved →
    NoTransport (translateFile env path w).failures

def contextOf : Analysis → Option Context
  | .bypassed => some {}
  | .ready ctx => some ctx
  | _ => none

/-- Pass 3 ends with rejected replies and with other errors. -/
def Mixed (fs : FileSystem) (path : Path) : Prop :=
  ∃ source batches ctx errors, readSubtitle env.codecs fs path = .ok source ∧
    batchSubdoc source env.settings env.settings.translateContextLinesK
      env.settings.translateMaxCuesPerBatch = .ok batches ∧
    contextOf (env.analyze source) = some ctx ∧
    (gather env.schedule (translateBatches env.llm env.settings ctx batches)).result =
      .error errors ∧
    defectsOf errors ≠ [] ∧ othersOf errors ≠ []

/-- A source that cannot be decided about is in progress already, and no group of tasks ends in
both ways while the quarantine can be written. -/
structure Unmixed : Prop where
  decided : ∀ err, decisionTable env.contentHash w.fs w.ledger path = .error err →
    w.fs.exists? path = true ∧
      ∃ entry, row? w.ledger (w.fs.resolve path).str = some entry ∧ entry.status = .inProgress
  batches : ∀ job, decisionTable env.contentHash w.fs w.ledger path = .ok (some job) →
    env.faults.quarantine = none → ¬ Mixed env w.fs job.path

variable {env path w}

theorem judgeErrors_besides {errors : List PyError} :
    (∃ reason failing err, judgeErrors errors = .quarantined reason failing (some err)) ↔
      defectsOf errors ≠ [] ∧ othersOf errors ≠ [] := by
  unfold judgeErrors
  cases defectsOf errors with
  | nil => simp
  | cons defect defects => cases othersOf errors <;> simp

theorem judgeResults_besides {ctx : Context} {source : SubDoc} {results : List (List Str)}
    {reason : Reason} {failing : List ℕ} {err : PyError} :
    judgeResults env ctx source results ≠ .quarantined reason failing (some err) := by
  unfold judgeResults
  split
  next => nofun
  next => split <;> nofun

theorem judgeBatches_besides {source : SubDoc} {batches : List Batch} {ctx : Context} :
    (∃ reason failing err,
      judgeBatches env source batches ctx = .quarantined reason failing (some err)) ↔
    ∃ errors, (gather env.schedule (translateBatches env.llm env.settings ctx batches)).result =
      .error errors ∧ defectsOf errors ≠ [] ∧ othersOf errors ≠ [] := by
  unfold judgeBatches
  cases (gather env.schedule (translateBatches env.llm env.settings ctx batches)).result with
  | error errors => simp [judgeErrors_besides]
  | ok results => simp [judgeResults_besides]

theorem judge_besides {fs : FileSystem} {path : Path} :
    (∃ reason failing err, judge env fs path = .quarantined reason failing (some err)) ↔
      Mixed env fs path := by
  unfold judge Mixed
  cases readSubtitle env.codecs fs path with
  | error err => simp
  | ok source =>
    dsimp only
    cases hbatches : batchSubdoc source env.settings env.settings.translateContextLinesK
      env.settings.translateMaxCuesPerBatch with
    | error err => simp [hbatches]
    | ok batches =>
      cases hanalysis : env.analyze source with
      | failed err => simp [hbatches, hanalysis, judgeAnalyzed, contextOf]
      | raised err => simp [hbatches, hanalysis, judgeAnalyzed, contextOf]
      | bypassed => simp [hbatches, hanalysis, judgeAnalyzed, contextOf, judgeBatches_besides]
      | ready ctx => simp [hbatches, hanalysis, judgeAnalyzed, contextOf, judgeBatches_besides]

theorem eligible_of_inProgress {ledger : L} {entry : LedgerEntry} {fs : FileSystem} {p : Path}
    (hexists : fs.exists? p = true) (hrow : row? ledger p.str = some entry)
    (hstatus : entry.status = .inProgress) (contentHash : Bytes → Str) :
    ∃ v, isEligible contentHash fs p ledger = .ok v ∧ v.eligible = true := by
  rw [isEligible_eligible_iff, hrow]
  refine ⟨hexists, fun _ hdone => ?_⟩
  cases hstatus.symm.trans hdone

theorem leftForRetry_of_row {run : Run L} {entry : LedgerEntry}
    (hartifacts : run.world.artifacts = w.artifacts) (hfs : run.world.fs = w.fs)
    (hexists : w.fs.exists? path = true)
    (hrow : row? run.world.ledger (w.fs.resolve path).str = some entry)
    (hstatus : entry.status = .inProgress) : LeftForRetry env path w run := by
  refine ⟨hartifacts, hfs, ⟨entry, hrow, hstatus⟩, ?_⟩
  apply eligible_of_inProgress ?_ hrow hstatus
  rw [hfs, FileSystem.exists?_resolve]
  exact hexists

/-- A run that cannot decide leaves everything as it was. -/
theorem transportSafe_undecided {err : DecisionError}
    (hjob : decisionTable env.contentHash w.fs w.ledger path = .error err)
    (hrun : translateFile env path w = raise w (.decision err)) :
    TransportSafe env path w ↔ Unmixed env path w := by
  constructor
  · intro hsafe
    have hleft := hsafe.raised (.decision err) (congrArg Run.outcome hrun)
    refine ⟨fun _ _ => ?_, fun job hjob' => ?_⟩
    · have hrow := hleft.row
      have heligible := (isEligible_eligible_iff.mp hleft.eligible).1
      rw [hrun] at hrow
      rw [hleft.fs, FileSystem.exists?_resolve] at heligible
      exact ⟨heligible, hrow⟩
    · cases hjob.symm.trans hjob'
  · intro hunmixed
    obtain ⟨hexists, entry, hrow, hstatus⟩ := hunmixed.decided err hjob
    refine ⟨fun _ _ => ?_, ?_⟩
    · rw [hrun]
      exact leftForRetry_of_row rfl rfl hexists hrow hstatus
    · rintro ⟨_, _, houtcome⟩
      rw [hrun] at houtcome
      cases houtcome

theorem transportSafe_of_aftermath {job : Job} (hpasses : env.PassesRaise)
    (hjob : decisionTable env.contentHash w.fs w.ledger path = .ok (some job))
    (hafter : Aftermath env job w (translateFile env path w)) :
    TransportSafe env path w ↔ Unmixed env path w := by
  obtain ⟨hpath, _, bytes, hbytes, _⟩ := decisionTable_job hjob
  have hunmixed : Unmixed env path w ↔
      (env.faults.quarantine = none → ¬ Mixed env w.fs job.path) := by
    constructor
    · exact fun h => h.batches job hjob
    · refine fun h => ⟨fun err herr => ?_, fun job' hjob' => ?_⟩
      · cases hjob.symm.trans herr
      · cases hjob.symm.trans hjob'
        exact h
  rw [hunmixed]
  cases hafter with
  | broken hdelivers hshelves hrow hfs hartifacts _ err houtcome =>
    refine iff_of_true ⟨fun _ _ => ?_, fun hends => translateFile_noTransport hpasses hends⟩ ?_
    · have hentry := hrow job.path.str
      rw [if_pos (show job.path.str = (inProgressEntry job).sourcePath from rfl), hpath] at hentry
      exact leftForRetry_of_row hartifacts hfs (FileSystem.exists?_of_readBytes hbytes) hentry rfl
    · intro hfault hmixed
      obtain ⟨reason, failing, besides, hjudge⟩ := judge_besides.mpr hmixed
      exact hshelves ⟨hfault, reason, failing, some besides, hjudge⟩
  | shelved hshelves hdelivers entry hsource _ hstatus hrow hfs _ _ reason failing besides hjudge
      houtcome =>
    cases besides with
    | none =>
      refine iff_of_true ⟨fun err herr => ?_, fun hends => translateFile_noTransport hpasses hends⟩ ?_
      · cases houtcome.symm.trans herr
      · intro _ hmixed
        obtain ⟨_, _, err, hjudge'⟩ := judge_besides.mpr hmixed
        cases hjudge.symm.trans hjudge'
    | some err =>
      refine iff_of_false (fun hsafe => ?_) fun hnot => ?_
      · obtain ⟨entry', hentry, hstatus'⟩ := (hsafe.raised _ houtcome).row
        rw [hrow, if_pos (by rw [hsource, hpath])] at hentry
        cases hentry
        cases hstatus.symm.trans hstatus'
      · exact hnot hshelves.1 (judge_besides.mp ⟨reason, failing, err, hjudge⟩)
  | delivered hdelivers hshelves _ _ _ _ _ _ _ _ _ _ houtcome =>
    refine iff_of_true ⟨fun err herr => ?_, fun hends => translateFile_noTransport hpasses hends⟩ ?_
    · cases houtcome.symm.trans herr
    · intro hfault hmixed
      obtain ⟨reason, failing, besides, hjudge⟩ := judge_besides.mpr hmixed
      exact hshelves ⟨hfault, reason, failing, some besides, hjudge⟩

end Safety

/-- Transport failures never quarantine a source exactly when no group of tasks ends with rejected
replies and other errors at once. -/
theorem transport_never_quarantines_iff {L : Type} [LawfulLedger L] (env : Env)
    (series : Option SeriesRun) (path : Path) (w : World L) :
    TransportSafe (env.forSeries series) path w ↔ Unmixed (env.forSeries series) path w := by
  have hpasses := forSeries_passesRaise env series
  rcases translateFile_aftermath (env.forSeries series) path w with
    ⟨err, hjob, hrun⟩ | ⟨hjob, hrun⟩ | ⟨job, hjob, hafter⟩
  · exact transportSafe_undecided hjob hrun
  · refine iff_of_true ⟨fun err herr => ?_, ?_⟩ ⟨fun err herr => ?_, fun job hjob' => ?_⟩
    · rw [hrun] at herr
      cases herr
    · exact translateFile_noTransport hpasses
    · cases hjob.symm.trans herr
    · cases hjob.symm.trans hjob'
  · exact transportSafe_of_aftermath hpasses hjob hafter

def twoCues : World Ledger :=
  { oneEpisode with
    fs := .linking ⟨"/link"⟩ ⟨"/link"⟩ fun p =>
      if p = ⟨"/tv/E01.en.srt"⟩ then
        some
          { content := encodeUtf8
              "1\n00:00:01,000 --> 00:00:02,000\nHi.\n\n2\n00:00:03,000 --> 00:00:04,000\nBye.\n"
            writer := .other }
      else none }

/-- One cue a batch: the first gets replies without a number, the second none at all. -/
def halfDown : Env :=
  { endpointDown with
    settings := { translateMaxCuesPerBatch := 1 }
    llm := ⟨fun site _ _ => if site = .pass3 0 then .ok "Xin chào." else .error (.apiError "503")⟩
    schedule := ⟨[0, 1], fun _ => 1⟩ }

/-- The run raises, and its source is in quarantine. -/
theorem mixture_quarantined : ¬ TransportSafe (halfDown.forSeries none) ⟨"/tv/E01.en.srt"⟩ twoCues := by
  intro h
  have hend : (translateFile (halfDown.forSeries none) ⟨"/tv/E01.en.srt"⟩ twoCues).outcome =
        .error (.python (.apiError "503")) ∧
      (row? (translateFile (halfDown.forSeries none) ⟨"/tv/E01.en.srt"⟩ twoCues).world.ledger
        (twoCues.fs.resolve ⟨"/tv/E01.en.srt"⟩).str).map LedgerEntry.status = some .quarantined := by
    decide +kernel
  obtain ⟨houtcome, hrow⟩ := hend
  obtain ⟨entry, hentry, hstatus⟩ := (h.raised _ houtcome).row
  rw [hentry, Option.map_some, hstatus] at hrow
  cases hrow

end Trezarr
