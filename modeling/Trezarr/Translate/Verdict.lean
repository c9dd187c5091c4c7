import Trezarr.Translate.Endings

/-! What a run concludes about its source, apart from what it then does to the world. -/
namespace Trezarr
open Text Fallible LedgerProtocol LawfulLedger

inductive Verdict
  | raised (err : PyError)
  | accepted (doc : SubDoc)
  /-- What the tasks raised besides goes on to the caller. -/
  | quarantined (reason : Reason) (failing : List ℕ) (besides : Option PyError)

section Judge

variable (env : Env)

def judgeResults (ctx : Context) (source : SubDoc) (results : List (List Str)) : Verdict :=
  match prepare env ctx source results with
  | .error err => .raised err
  | .ok translated =>
    match ((gateOf env.llm source env.settings ctx).loop
      env.settings.gateRepairMaxAttempts.toNat 0 translated).outcome with
    | .accepted doc => .accepted doc
    | .raised err => .raised err
    | .rejected failure =>
      .quarantined (.gate failure.reason) (failure.failingIndices.getD []) none

def judgeErrors (errors : List PyError) : Verdict :=
  match defectsOf errors with
  | [] => .raised (errors.head?.getD .indexError)
  | defect :: _ => .quarantined (.batch defect) [] (othersOf errors).head?

def judgeBatches (source : SubDoc) (batches : List Batch) (ctx : Context) : Verdict :=
  match (gather env.schedule (translateBatches env.llm env.settings ctx batches)).result with
  | .error errors => judgeErrors errors
  | .ok results => judgeResults env ctx source results

def judgeAnalyzed (source : SubDoc) (batches : List Batch) : Analysis → Verdict
  | .bypassed => judgeBatches env source batches {}
  | .ready ctx => judgeBatches env source batches ctx
  | .failed err => .quarantined (.analysis err) [] none
  | .raised err => .raised err

/-- A pure function of the source as it is read. -/
def judge (fs : FileSystem) (path : Path) : Verdict :=
  match readSubtitle env.codecs fs path with
  | .error err => .quarantined (.read err) [] none
  | .ok source =>
    match batchSubdoc source env.settings env.settings.translateContextLinesK
      env.settings.translateMaxCuesPerBatch with
    | .error err => .quarantined (.batching err) [] none
    | .ok batches => judgeAnalyzed env source batches (env.analyze source)

/-- The text of the sidecar, when there is a format to write it in. -/
def sidecarText (dest : Path) (doc : SubDoc) : Option Str :=
  (Format.ofSuffix dest.suffix).bind fun format => format.write { doc with encoding := "utf-8" }

/-- The run gets to replace the sidecar. -/
def Delivers (fs : FileSystem) (job : Job) : Prop :=
  env.faults.sidecar = none ∧
    ∃ doc, judge env fs job.path = .accepted doc ∧ (sidecarText job.dest doc).isSome

/-- The run gets to put its source in quarantine. -/
def Shelves (fs : FileSystem) (job : Job) : Prop :=
  env.faults.quarantine = none ∧
    ∃ reason failing besides, judge env fs job.path = .quarantined reason failing besides

end Judge

/-- The runs differ at most in what they counted on the way. -/
structure SameEnd {L : Type} (run run' : Run L) : Prop where
  world : run.world = run'.world
  outcome : run.outcome = run'.outcome
  sidecar : run.sidecar = run'.sidecar
  replaced : run.replaced = run'.replaced

namespace SameEnd

variable {L : Type} {run run' : Run L}

theorem refl (run : Run L) : SameEnd run run := ⟨rfl, rfl, rfl, rfl⟩

theorem counted (h : SameEnd run run') (pass3Calls : ℕ) (repairCalls : List ℕ)
    (failures : List PyError) : SameEnd
      { run with pass3Calls := pass3Calls, repairCalls := repairCalls, failures := failures }
      run' :=
  ⟨h.world, h.outcome, h.sidecar, h.replaced⟩

end SameEnd

section Conclude

variable {L : Type} [LedgerProtocol L] {env : Env} {job : Job} {w : World L}

def conclude (env : Env) (job : Job) (w : World L) : Verdict → Run L
  | .raised err => raise w (.python err)
  | .accepted doc => finish env job w doc
  | .quarantined reason failing besides =>
    let run := quarantine env job w reason failing
    match run.outcome, besides with
    | .ok _, some err => { run with outcome := .error (.python err) }
    | _, _ => run

theorem sameEnd_quarantined (reason : Reason) (failing : List ℕ) :
    SameEnd (quarantine env job w reason failing)
      (conclude env job w (.quarantined reason failing none)) := by
  simp only [conclude]
  cases (quarantine env job w reason failing).outcome <;> exact .refl _

theorem sameEnd_deliver (ctx : Context) (source : SubDoc) (results : List (List Str)) :
    SameEnd (deliver env job w ctx source results)
      (conclude env job w (judgeResults env ctx source results)) := by
  unfold deliver judgeResults
  cases prepare env ctx source results with
  | error err => exact .refl _
  | ok translated =>
    dsimp only
    generalize (gateOf env.llm source env.settings ctx).loop
      env.settings.gateRepairMaxAttempts.toNat 0 translated = gated
    cases hgated : gated.outcome with
    | accepted doc => exact (SameEnd.refl (finish env job w doc)).counted _ _ _
    | raised err => exact (SameEnd.refl (raise w (.python err))).counted _ _ _
    | rejected failure => exact (sameEnd_quarantined _ _).counted _ _ _

theorem sameEnd_failBatches (errors : List PyError) :
    SameEnd (failBatches env job w errors) (conclude env job w (judgeErrors errors)) := by
  unfold failBatches judgeErrors
  cases defectsOf errors with
  | nil => exact .refl _
  | cons defect rest =>
    simp only [conclude]
    cases (quarantine env job w (.batch defect) []).outcome <;> cases othersOf errors <;>
      exact .refl _

theorem sameEnd_translate (source : SubDoc) (batches : List Batch) (ctx : Context) :
    SameEnd (translate env job w source batches ctx)
      (conclude env job w (judgeBatches env source batches ctx)) := by
  unfold translate judgeBatches
  dsimp only
  cases (gather env.schedule (translateBatches env.llm env.settings ctx batches)).result with
  | error errors => exact (sameEnd_failBatches errors).counted _ _ _
  | ok results => exact (sameEnd_deliver ctx source results).counted _ _ _

theorem sameEnd_afterAnalysis (source : SubDoc) (batches : List Batch) (analysis : Analysis) :
    SameEnd (afterAnalysis env job w source batches analysis)
      (conclude env job w (judgeAnalyzed env source batches analysis)) := by
  cases analysis with
  | bypassed => exact sameEnd_translate _ _ _
  | ready ctx => exact sameEnd_translate _ _ _
  | failed err => exact sameEnd_quarantined _ _
  | raised err => exact .refl _

/-- A run judges its source and acts on the verdict. -/
theorem sameEnd_readAndTranslate : SameEnd (readAndTranslate env job w)
    (conclude env job w (judge env w.fs job.path)) := by
  unfold readAndTranslate judge
  cases readSubtitle env.codecs w.fs job.path with
  | error err => exact sameEnd_quarantined _ _
  | ok source =>
    dsimp only
    cases batchSubdoc source env.settings env.settings.translateContextLinesK
      env.settings.translateMaxCuesPerBatch with
    | error err => exact sameEnd_quarantined _ _
    | ok batches => exact (sameEnd_afterAnalysis _ _ _).counted _ _ _

theorem recordEntry_replaced (entry : LedgerEntry) (result : TranslationResult) :
    (recordEntry w entry result).replaced = none := by
  unfold recordEntry
  split <;> rfl

theorem quarantine_replaced (reason : Reason) (failing : List ℕ) :
    (quarantine env job w reason failing).replaced = none := by
  unfold quarantine
  split
  next => rfl
  next => exact recordEntry_replaced _ _

def quarantinedEntry (env : Env) (job : Job) : LedgerEntry where
  sourcePath := job.path.str
  outputPath := none
  status := .quarantined
  contentHash := job.contentHash
  quarantinePath := some (quarantinePath env job).str

def withArtifact (env : Env) (job : Job) (w : World L) (reason : Reason) (failing : List ℕ) :
    World L :=
  let artifact : Artifact := ⟨reason, failing, env.now, job.path⟩
  { w with artifacts := fun p => if p = quarantinePath env job then some artifact else w.artifacts p }

theorem quarantine_eq (hfault : env.faults.quarantine = none) (reason : Reason)
    (failing : List ℕ) : quarantine env job w reason failing =
      recordEntry (withArtifact env job w reason failing) (quarantinedEntry env job)
        (.quarantined (quarantinePath env job) reason) := by
  simp only [quarantine, hfault]
  rfl

/-- A started run has its entry in progress before it looks at its source. -/
def inProgressEntry (job : Job) : LedgerEntry where
  sourcePath := job.path.str
  outputPath := some job.dest.str
  status := .inProgress
  contentHash := job.contentHash

end Conclude

section Aftermath

variable {L : Type} [LawfulLedger L] {env : Env} {job : Job} {w w' w'' : World L} {run run' : Run L}

/-- The job's row is this one now, and no other row is touched. -/
def RowSet (entry : LedgerEntry) (w w' : World L) : Prop :=
  ∀ key, row? w'.ledger key = if key = entry.sourcePath then some entry else row? w.ledger key

theorem RowSet.trans {entry entry' : LedgerEntry} (h : RowSet entry w w')
    (h' : RowSet entry' w' w'') (hsource : entry.sourcePath = entry'.sourcePath) :
    RowSet entry' w w'' := by
  intro key
  rw [h' key]
  split
  next => rfl
  next hkey => rw [h key, if_neg (hsource ▸ hkey)]

theorem recordEntry_recorded (entry : LedgerEntry) (result : TranslationResult) :
    RowSet entry w (recordEntry w entry result).world ∧
      (recordEntry w entry result).outcome = .ok result ∧
      (recordEntry w entry result).world.artifacts = w.artifacts := by
  obtain ⟨ledger, hrecord, hrows⟩ := LawfulLedger.record_eq w.ledger entry
  unfold recordEntry
  rw [hrecord]
  exact ⟨hrows, rfl, rfl⟩

/-- What a started run leaves behind, for each of the three things it can come to. -/
inductive Aftermath (env : Env) (job : Job) (w : World L) (run : Run L) : Prop
  | broken (hdelivers : ¬ Delivers env w.fs job) (hshelves : ¬ Shelves env w.fs job)
      (hrecorded : RowSet (inProgressEntry job) w run.world) (hfs : run.world.fs = w.fs)
      (hartifacts : run.world.artifacts = w.artifacts) (hreplaced : run.replaced = none)
      (err : RunError) (houtcome : run.outcome = .error err)
  | shelved (hshelves : Shelves env w.fs job) (hdelivers : ¬ Delivers env w.fs job)
      (entry : LedgerEntry) (hsource : entry.sourcePath = job.path.str)
      (houtput : entry.outputPath = none) (hstatus : entry.status = .quarantined)
      (hrecorded : RowSet entry w run.world) (hfs : run.world.fs = w.fs)
      (hartifact : (run.world.artifacts (quarantinePath env job)).isSome)
      (hreplaced : run.replaced = none) (reason : Reason) (failing : List ℕ)
      (besides : Option PyError)
      (hjudge : judge env w.fs job.path = .quarantined reason failing besides)
      (houtcome : run.outcome = match besides with
        | none => .ok (.quarantined (quarantinePath env job) reason)
        | some err => .error (.python err))
  | delivered (hdelivers : Delivers env w.fs job) (hshelves : ¬ Shelves env w.fs job)
      (entry : LedgerEntry) (hsource : entry.sourcePath = job.path.str)
      (houtput : entry.outputPath = some job.dest.str) (hstatus : entry.status = .done)
      (hhash : entry.contentHash = job.contentHash)
      (hrecorded : RowSet entry w run.world) (content : Bytes)
      (hfs : run.world.fs = w.fs.replace job.dest ⟨content, .trezarr, none⟩)
      (hartifacts : run.world.artifacts = w.artifacts)
      (hreplaced : run.replaced = some (w.fs.entry job.dest))
      (houtcome : run.outcome = .ok (.done job.dest))

theorem Aftermath.of_sameEnd (hend : SameEnd run run') (h : Aftermath env job w run') :
    Aftermath env job w run := by
  obtain ⟨hworld, hout, _, hrep⟩ := hend
  cases h with
  | broken hdelivers hshelves hrecorded hfs hartifacts hreplaced err houtcome =>
    exact .broken hdelivers hshelves (hworld ▸ hrecorded) (hworld ▸ hfs) (hworld ▸ hartifacts)
      (hrep.trans hreplaced) err (hout.trans houtcome)
  | shelved hshelves hdelivers entry hsource houtput hstatus hrecorded hfs hartifact hreplaced
      reason failing besides hjudge houtcome =>
    exact .shelved hshelves hdelivers entry hsource houtput hstatus (hworld ▸ hrecorded)
      (hworld ▸ hfs) (hworld ▸ hartifact) (hrep.trans hreplaced) reason failing besides hjudge
      (hout.trans houtcome)
  | delivered hdelivers hshelves entry hsource houtput hstatus hhash hrecorded content hfs
      hartifacts hreplaced houtcome =>
    exact .delivered hdelivers hshelves entry hsource houtput hstatus hhash (hworld ▸ hrecorded)
      content (hworld ▸ hfs) (hworld ▸ hartifacts) (hrep.trans hreplaced) (hout.trans houtcome)

/-- The entry in progress is all that happened before the verdict. -/
structure Started (job : Job) (w w' : World L) : Prop where
  recorded : RowSet (inProgressEntry job) w w'
  fs : w'.fs = w.fs
  artifacts : w'.artifacts = w.artifacts

theorem aftermath_raised (hstarted : Started job w w') {err : PyError}
    (hjudge : judge env w.fs job.path = .raised err) :
    Aftermath env job w (raise w' (.python err)) := by
  refine .broken ?_ ?_ hstarted.recorded hstarted.fs hstarted.artifacts rfl _ rfl
  · rintro ⟨_, doc, haccepted, _⟩
    cases hjudge.symm.trans haccepted
  · rintro ⟨_, reason, failing, besides, hquarantined⟩
    cases hjudge.symm.trans hquarantined

theorem aftermath_finish (hstarted : Started job w w') {doc : SubDoc}
    (hjudge : judge env w.fs job.path = .accepted doc) :
    Aftermath env job w (finish env job w' doc) := by
  have hshelves : ¬ Shelves env w.fs job := by
    rintro ⟨_, reason, failing, besides, hquarantined⟩
    cases hjudge.symm.trans hquarantined
  unfold finish
  cases hwrite : writeViSidecar env job w' doc with
  | error err =>
    refine .broken ?_ hshelves hstarted.recorded hstarted.fs hstarted.artifacts rfl err rfl
    rintro ⟨hfault, doc', haccepted, htext⟩
    cases hjudge.symm.trans haccepted
    obtain ⟨text, htext⟩ := Option.isSome_iff_exists.mp htext
    unfold sidecarText at htext
    simp only [writeViSidecar, hfault, htext] at hwrite
    cases hwrite
  | ok written =>
    have hdelivers : Delivers env w.fs job := by
      unfold writeViSidecar at hwrite
      split at hwrite
      next => cases hwrite
      next hfault =>
        split at hwrite
        next => cases hwrite
        next text htext => exact ⟨hfault, doc, hjudge, Option.isSome_iff_exists.mpr ⟨text, htext⟩⟩
    obtain ⟨content, _, rfl⟩ := writeViSidecar_ok hwrite
    obtain ⟨hrecorded, houtcome, hartifacts⟩ := recordEntry_recorded
      (w := { w' with fs := w'.fs.replace job.dest ⟨content, .trezarr, none⟩ })
      { sourcePath := job.path.str
        outputPath := some job.dest.str
        status := .done
        contentHash := job.contentHash
        seriesId := env.seriesId
        translatedAt := some env.now } (.done job.dest)
    refine .delivered hdelivers hshelves _ rfl rfl rfl rfl (hstarted.recorded.trans hrecorded rfl)
      content ?_ ?_ ?_ houtcome
    · rw [← hstarted.fs]
      exact recordEntry_fs _ _
    · exact hartifacts.trans hstarted.artifacts
    · rw [← hstarted.fs]

theorem aftermath_quarantined (hstarted : Started job w w') {reason : Reason} {failing : List ℕ}
    {besides : Option PyError}
    (hjudge : judge env w.fs job.path = .quarantined reason failing besides) :
    Aftermath env job w (conclude env job w' (.quarantined reason failing besides)) := by
  have hdelivers : ¬ Delivers env w.fs job := by
    rintro ⟨_, doc, haccepted, _⟩
    cases hjudge.symm.trans haccepted
  cases hfault : env.faults.quarantine with
  | some err =>
    have hrun : conclude env job w' (.quarantined reason failing besides) = raise w' (.os err) := by
      simp only [conclude, quarantine, hfault]
      rfl
    rw [hrun]
    refine .broken hdelivers ?_ hstarted.recorded hstarted.fs hstarted.artifacts rfl _ rfl
    rintro ⟨hnone, _⟩
    cases hfault.symm.trans hnone
  | none =>
    have hrun : quarantine env job w' reason failing =
        recordEntry (withArtifact env job w' reason failing) (quarantinedEntry env job)
          (.quarantined (quarantinePath env job) reason) := quarantine_eq hfault reason failing
    obtain ⟨hrecorded, houtcome, hartifacts⟩ := recordEntry_recorded
      (w := withArtifact env job w' reason failing) (quarantinedEntry env job)
      (.quarantined (quarantinePath env job) reason)
    have hartifact : ((withArtifact env job w' reason failing).artifacts
        (quarantinePath env job)).isSome := by
      simp [withArtifact]
    have hfs : (quarantine env job w' reason failing).world.fs = w'.fs :=
      quarantine_fs reason failing
    have hshelves : Shelves env w.fs job := ⟨hfault, reason, failing, besides, hjudge⟩
    rw [← hartifacts] at hartifact
    have hreplaced : (quarantine env job w' reason failing).replaced = none :=
      quarantine_replaced reason failing
    rw [← hrun] at hrecorded houtcome hartifact
    have hends : ∀ run : Run L, run.world = (quarantine env job w' reason failing).world →
        run.replaced = (quarantine env job w' reason failing).replaced →
        (run.outcome = match besides with
          | none => .ok (.quarantined (quarantinePath env job) reason)
          | some err => .error (.python err)) → Aftermath env job w run := by
      intro run hworld hrep hout
      exact .shelved hshelves hdelivers _ rfl rfl rfl
        (hworld ▸ hstarted.recorded.trans hrecorded rfl) (hworld ▸ hfs.trans hstarted.fs)
        (hworld ▸ hartifact) (hrep.trans hreplaced) reason failing besides hjudge hout
    simp only [conclude, houtcome]
    cases besides with
    | none => exact hends _ rfl rfl houtcome
    | some err => exact hends _ rfl rfl rfl

/-- The ledger takes the first entry, so every run with a job reads its source. -/
theorem start_eq (env : Env) (job : Job) (w : World L) : ∃ w', Started job w w' ∧
    start env job w = readAndTranslate env job w' := by
  obtain ⟨ledger, hrecord, hrows⟩ := LawfulLedger.record_eq w.ledger (inProgressEntry job)
  refine ⟨{ w with ledger := ledger }, ⟨hrows, rfl, rfl⟩, ?_⟩
  unfold inProgressEntry at hrecord
  unfold start
  rw [hrecord]

/-- What a run with a job comes to follows from the verdict on its source. -/
theorem aftermath_start : Aftermath env job w (start env job w) := by
  obtain ⟨w', hstarted, hrun⟩ := start_eq env job w
  rw [hrun]
  apply Aftermath.of_sameEnd sameEnd_readAndTranslate
  rw [hstarted.fs]
  cases hjudge : judge env w.fs job.path with
  | raised err => exact aftermath_raised hstarted hjudge
  | accepted doc => exact aftermath_finish hstarted hjudge
  | quarantined reason failing besides => exact aftermath_quarantined hstarted hjudge

/-- Every run stops at the decision table or has a job and its aftermath. -/
theorem translateFile_aftermath (env : Env) (path : Path) (w : World L) :
    (∃ err, decisionTable env.contentHash w.fs w.ledger path = .error err ∧
      translateFile env path w = raise w (.decision err)) ∨
    (decisionTable env.contentHash w.fs w.ledger path = .ok none ∧
      translateFile env path w = { world := w, outcome := .ok .skipped }) ∨
    ∃ job, decisionTable env.contentHash w.fs w.ledger path = .ok (some job) ∧
      Aftermath env job w (translateFile env path w) := by
  unfold translateFile
  cases hjob : decisionTable env.contentHash w.fs w.ledger path with
  | error err => exact .inl ⟨err, rfl, rfl⟩
  | ok job =>
    cases job with
    | none => exact .inr (.inl ⟨rfl, rfl⟩)
    | some job => exact .inr (.inr ⟨job, rfl, aftermath_start⟩)

end Aftermath

end Trezarr
