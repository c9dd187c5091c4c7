import Trezarr.Translate.TranslateFile

/-! The ways a run can end, and what each of them does to the files. -/
namespace Trezarr
open Text Fallible LedgerProtocol

namespace Gate

variable {gate : Gate}

/-- However many repairs came before, the accepted document passed the last verdict. -/
theorem loop_accepted {budget : ℕ} : ∀ {round : ℕ} {doc out : SubDoc},
    (gate.loop budget round doc).outcome = .accepted out → gate.validate out = .ok () := by
  induction budget with
  | zero =>
    intro round doc out h
    simp only [loop] at h
    split at h
    next hvalid =>
      cases h
      exact hvalid
    next => cases h
    next => cases h
  | succ budget ih =>
    intro round doc out h
    simp only [loop] at h
    split at h
    next hvalid =>
      cases h
      exact hvalid
    next => cases h
    next =>
      split at h
      next => cases h
      next =>
        split at h
        next => cases h
        next => cases h
        next => exact ih h

end Gate

/-- The document in the bytes of the format of the sidecar. -/
def Emits (dest : Path) (doc : SubDoc) (content : Bytes) : Prop :=
  ∃ format text, Format.ofSuffix dest.suffix = some format ∧
    format.write { doc with encoding := "utf-8" } = some text ∧ content = encodeUtf8 text

theorem writeViSidecar_ok {L : Type} {env : Env} {job : Job} {w w' : World L} {doc : SubDoc}
    (h : writeViSidecar env job w doc = .ok w') : ∃ content, Emits job.dest doc content ∧
      w' = { w with fs := w.fs.replace job.dest ⟨content, .trezarr, none⟩ } := by
  unfold writeViSidecar at h
  split at h
  next => cases h
  next =>
    split at h
    next => cases h
    next text htext =>
      cases h
      obtain ⟨format, hformat, hwrite⟩ := Option.bind_eq_some_iff.mp htext
      exact ⟨encodeUtf8 text, ⟨format, text, hformat, hwrite, rfl⟩, rfl⟩

section Endings

variable {L : Type} [LedgerProtocol L]

/-- How a run ends once it has a job, whatever it counted on the way. -/
inductive Ending (env : Env) (job : Job) (w : World L) (accepted : SubDoc → Prop) : Run L → Prop
  | raised (err : RunError) : Ending env job w accepted (raise w err)
  | quarantined (reason : Reason) (failing : List ℕ) :
    Ending env job w accepted (quarantine env job w reason failing)
  | interrupted (reason : Reason) (err : RunError) :
    Ending env job w accepted { quarantine env job w reason [] with outcome := .error err }
  | finished (doc : SubDoc) (haccepted : accepted doc) :
    Ending env job w accepted (finish env job w doc)
  | counted {run : Run L} (hrun : Ending env job w accepted run) (pass3Calls : ℕ)
    (repairCalls : List ℕ) (failures : List PyError) : Ending env job w accepted
      { run with pass3Calls := pass3Calls, repairCalls := repairCalls, failures := failures }

variable {env : Env} {job : Job} {w : World L} {run : Run L} {accepted : SubDoc → Prop}

theorem Ending.mono {accepted' : SubDoc → Prop} (h : Ending env job w accepted run)
    (himp : ∀ doc, accepted doc → accepted' doc) : Ending env job w accepted' run := by
  induction h with
  | raised err => exact .raised err
  | quarantined reason failing => exact .quarantined reason failing
  | interrupted reason err => exact .interrupted reason err
  | finished doc haccepted => exact .finished doc (himp doc haccepted)
  | counted _ pass3Calls repairCalls failures ih =>
    exact ih.counted pass3Calls repairCalls failures

/-- The document passed the gate against this source. -/
def Validated (env : Env) (source : SubDoc) (ctx : Context) (doc : SubDoc) : Prop :=
  validateSubdoc doc source env.settings ctx.allowlist = .ok ()

/-- Repairs and envelopes change the document only before the verdict that lets it pass. -/
theorem ending_deliver (ctx : Context) (source : SubDoc) (results : List (List Str)) :
    Ending env job w (Validated env source ctx) (deliver env job w ctx source results) := by
  unfold deliver
  split
  next => exact .raised _
  next =>
    dsimp only
    split
    next haccepted => exact (Ending.finished _ (Gate.loop_accepted haccepted)).counted _ _ _
    next => exact (Ending.raised _).counted _ _ _
    next => exact (Ending.quarantined _ _).counted _ _ _

theorem ending_failBatches (errors : List PyError) :
    Ending env job w accepted (failBatches env job w errors) := by
  unfold failBatches
  split
  next => exact .raised _
  next =>
    dsimp only
    split
    next => exact .interrupted _ _
    next => exact .quarantined _ _

theorem ending_translate (source : SubDoc) (batches : List Batch) (ctx : Context) :
    Ending env job w (Validated env source ctx) (translate env job w source batches ctx) := by
  unfold translate
  dsimp only
  split
  next => exact (ending_failBatches _).counted _ _ _
  next => exact (ending_deliver _ _ _).counted _ _ _

/-- The gate's verdict is on the document a run reads at its job's path. -/
def Approved {L : Type} (env : Env) (job : Job) (w : World L) (doc : SubDoc) : Prop :=
  ∃ source ctx, readSubtitle env.codecs w.fs job.path = .ok source ∧
    (env.analyze source = .ready ctx ∨ env.analyze source = .bypassed ∧ ctx = {}) ∧
    Validated env source ctx doc

theorem ending_readAndTranslate :
    Ending env job w (Approved env job w) (readAndTranslate env job w) := by
  unfold readAndTranslate
  split
  next => exact .quarantined _ _
  next source hsource =>
    split
    next => exact .quarantined _ _
    next batches _ =>
      apply Ending.counted
      cases hanalyze : env.analyze source with
      | bypassed =>
        apply (ending_translate _ _ _).mono
        intro doc hvalidated
        exact ⟨source, {}, hsource, .inr ⟨hanalyze, rfl⟩, hvalidated⟩
      | ready ctx =>
        apply (ending_translate _ _ _).mono
        intro doc hvalidated
        exact ⟨source, ctx, hsource, .inl hanalyze, hvalidated⟩
      | failed text => exact .quarantined _ _
      | raised err => exact .raised _

/-- A run with a job stops at its first record, or goes on with the entry in progress. -/
theorem start_cases (env : Env) (job : Job) (w : World L) : (∃ err, start env job w = raise w err) ∨
    ∃ ledger, record w.ledger
        { sourcePath := job.path.str
          outputPath := some job.dest.str
          status := .inProgress
          contentHash := job.contentHash } = .ok ledger ∧
      start env job w = readAndTranslate env job { w with ledger := ledger } := by
  unfold start
  split
  next err _ => exact .inl ⟨_, rfl⟩
  next ledger hledger => exact .inr ⟨ledger, hledger, rfl⟩

theorem recordEntry_fs (entry : LedgerEntry) (result : TranslationResult) :
    (recordEntry w entry result).world.fs = w.fs := by
  unfold recordEntry
  split <;> rfl

theorem recordEntry_sidecar (entry : LedgerEntry) (result : TranslationResult) :
    (recordEntry w entry result).sidecar = none := by
  unfold recordEntry
  split <;> rfl

theorem recordEntry_outcome {entry : LedgerEntry} {result result' : TranslationResult}
    (h : (recordEntry w entry result).outcome = .ok result') : result' = result := by
  unfold recordEntry at h
  split at h
  next => cases h
  next => exact (Except.ok.inj h).symm

theorem quarantine_fs (reason : Reason) (failing : List ℕ) :
    (quarantine env job w reason failing).world.fs = w.fs := by
  unfold quarantine
  split
  next => rfl
  next => exact recordEntry_fs _ _

theorem quarantine_sidecar (reason : Reason) (failing : List ℕ) :
    (quarantine env job w reason failing).sidecar = none := by
  unfold quarantine
  split
  next => rfl
  next => exact recordEntry_sidecar _ _

/-- What a run did to the files: nothing, an attempt that failed, or one sidecar. -/
inductive Touched (job : Job) (fs : FileSystem) (run : Run L) : Prop
  | kept (hsidecar : run.sidecar = none) (hfs : run.world.fs = fs)
      (hdone : ∀ dest, run.outcome ≠ .ok (.done dest))
  | failed (doc : SubDoc) (err : RunError) (hsidecar : run.sidecar = some doc)
      (hfs : run.world.fs = fs) (houtcome : run.outcome = .error err)
  | written (doc : SubDoc) (content : Bytes) (hsidecar : run.sidecar = some doc)
      (hemits : Emits job.dest doc content)
      (hfs : run.world.fs = fs.replace job.dest ⟨content, .trezarr, none⟩)
      (houtcome : ∀ result, run.outcome = .ok result → result = .done job.dest)

theorem touched_finish (doc : SubDoc) : Touched job w.fs (finish env job w doc) := by
  unfold finish
  split
  next err h => exact .failed doc err rfl rfl rfl
  next w' h =>
    obtain ⟨content, hemits, rfl⟩ := writeViSidecar_ok h
    exact .written doc content rfl hemits (recordEntry_fs _ _) fun result => recordEntry_outcome

theorem touched_quarantine (reason : Reason) (failing : List ℕ) :
    Touched job w.fs (quarantine env job w reason failing) := by
  refine .kept (quarantine_sidecar _ _) (quarantine_fs _ _) ?_
  intro dest h
  unfold quarantine at h
  split at h
  next => cases h
  next => cases recordEntry_outcome h

theorem Ending.touched (h : Ending env job w accepted run) : Touched job w.fs run := by
  induction h with
  | raised err => exact .kept rfl rfl fun _ => nofun
  | quarantined reason failing => exact touched_quarantine reason failing
  | interrupted reason err =>
    exact .kept (quarantine_sidecar reason []) (quarantine_fs reason []) fun _ => nofun
  | finished doc _ => exact touched_finish doc
  | counted _ _ _ _ ih =>
    cases ih with
    | kept hsidecar hfs hdone => exact .kept hsidecar hfs hdone
    | failed doc err hsidecar hfs houtcome => exact .failed doc err hsidecar hfs houtcome
    | written doc content hsidecar hemits hfs houtcome =>
      exact .written doc content hsidecar hemits hfs houtcome

/-- Only an accepted document is handed to the writer. -/
theorem Ending.accepted_of_sidecar {doc : SubDoc} (h : Ending env job w accepted run)
    (hdoc : run.sidecar = some doc) : accepted doc := by
  induction h with
  | raised err => cases hdoc
  | quarantined reason failing => cases (quarantine_sidecar reason failing).symm.trans hdoc
  | interrupted reason err => cases (quarantine_sidecar reason []).symm.trans hdoc
  | finished doc' haccepted =>
    have hfinish : (finish env job w doc').sidecar = some doc' := by
      unfold finish
      split <;> rfl
    cases hfinish.symm.trans hdoc
    exact haccepted
  | counted _ _ _ _ ih => exact ih hdoc

theorem touched_start : Touched job w.fs (start env job w) := by
  rcases start_cases env job w with ⟨err, h⟩ | ⟨ledger, _, h⟩
  · rw [h]
    exact .kept rfl rfl fun _ => nofun
  · rw [h]
    exact (ending_readAndTranslate (w := { w with ledger := ledger })).touched

theorem start_approved {doc : SubDoc} (h : (start env job w).sidecar = some doc) :
    Approved env job w doc := by
  rcases start_cases env job w with ⟨err, hstart⟩ | ⟨ledger, _, hstart⟩
  · rw [hstart] at h
    cases h
  · rw [hstart] at h
    exact (ending_readAndTranslate (w := { w with ledger := ledger })).accepted_of_sidecar h

end Endings

section Records

variable {L : Type} [LawfulLedger L] {env : Env} {job : Job} {w : World L} {run : Run L}
  {accepted : SubDoc → Prop}

/-- Every row is as it was, or the job's own, with no output or the sidecar for one. -/
def RecordedFor (job : Job) (before after : L) : Prop :=
  ∀ key entry, LawfulLedger.row? after key = some entry →
    LawfulLedger.row? before key = some entry ∨ key = job.path.str ∧
      ∀ output, entry.outputPath = some output → output = job.dest.str

theorem RecordedFor.refl (ledger : L) : RecordedFor job ledger ledger :=
  fun _ _ hrow => .inl hrow

theorem RecordedFor.trans {a b c : L} (hab : RecordedFor job a b) (hbc : RecordedFor job b c) :
    RecordedFor job a c := by
  intro key entry hrow
  rcases hbc key entry hrow with hrow | hnew
  · exact hab key entry hrow
  · exact .inr hnew

theorem recordedFor_record {ledger ledger' : L} {entry : LedgerEntry}
    (hsource : entry.sourcePath = job.path.str)
    (houtput : ∀ output, entry.outputPath = some output → output = job.dest.str)
    (h : record ledger entry = .ok ledger') : RecordedFor job ledger ledger' := by
  obtain ⟨l, hl, hrows⟩ := LawfulLedger.record_eq ledger entry
  cases hl.symm.trans h
  intro key e hrow
  rw [hrows key] at hrow
  split at hrow
  next hkey =>
    cases hrow
    exact .inr ⟨hkey.trans hsource, houtput⟩
  next => exact .inl hrow

theorem recordedFor_recordEntry {entry : LedgerEntry} (result : TranslationResult)
    (hsource : entry.sourcePath = job.path.str)
    (houtput : ∀ output, entry.outputPath = some output → output = job.dest.str) :
    RecordedFor job w.ledger (recordEntry w entry result).world.ledger := by
  unfold recordEntry
  split
  next => exact .refl _
  next hrecord => exact recordedFor_record hsource houtput hrecord

theorem recordedFor_quarantine (reason : Reason) (failing : List ℕ) :
    RecordedFor job w.ledger (quarantine env job w reason failing).world.ledger := by
  unfold quarantine
  split
  next => exact .refl _
  next => exact recordedFor_recordEntry _ rfl fun _ => nofun

theorem Ending.recordedFor (h : Ending env job w accepted run) :
    RecordedFor job w.ledger run.world.ledger := by
  induction h with
  | raised err => exact .refl _
  | quarantined reason failing => exact recordedFor_quarantine reason failing
  | interrupted reason err => exact recordedFor_quarantine reason []
  | finished doc _ =>
    unfold finish
    split
    next => exact .refl _
    next w' hwrite =>
      obtain ⟨content, _, rfl⟩ := writeViSidecar_ok hwrite
      exact recordedFor_recordEntry _ rfl fun _ hout => (Option.some.inj hout).symm
  | counted _ _ _ _ ih => exact ih

theorem recordedFor_start : RecordedFor job w.ledger (start env job w).world.ledger := by
  rcases start_cases env job w with ⟨err, h⟩ | ⟨ledger, hrecord, h⟩
  · rw [h]
    exact .refl _
  · rw [h]
    have hfirst : RecordedFor job w.ledger ledger :=
      recordedFor_record rfl (fun _ hout => (Option.some.inj hout).symm) hrecord
    exact hfirst.trans (ending_readAndTranslate (w := { w with ledger := ledger })).recordedFor

end Records

end Trezarr
