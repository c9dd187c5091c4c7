import Trezarr.Discover.Select
import Trezarr.Translate.Ownership

/-! One item from its source to its result: translated, checked against the roots, made readable. -/
namespace Trezarr
open Text Fallible LedgerProtocol LawfulLedger

structure PermissionApplyError where
  path : Path
  fileMode : ℕ
  cause : OSError
  deriving DecidableEq, Repr

/-- How a disk answers when owner and mode of a file are set. -/
structure Permissions where
  chown : Path → ℤ → ℤ → Option OSError := fun _ _ _ => none
  chmod : Path → ℕ → Option OSError := fun _ _ => none

def fileMode (umask : ℕ) : ℕ := 0o666 - (0o666 &&& umask)

/-- An owner that cannot be set is left as it is; a mode that cannot be set is an error. -/
def applyPermissions (permissions : Permissions) (path : Path) (settings : TrezarrSettings) :
    Except PermissionApplyError Unit :=
  match permissions.chown path settings.puid settings.pgid,
    permissions.chmod path (fileMode settings.umask) with
  | _, some cause => .error ⟨path, fileMode settings.umask, cause⟩
  | _, none => .ok ()

inductive ItemStatus
  | done
  | skipped
  | quarantined
  | error
  deriving DecidableEq, Repr

inductive ItemError
  | traversal (err : TraversalError)
  | permission (err : PermissionApplyError)
  deriving DecidableEq, Repr

inductive ItemReason
  | translation (reason : Reason)
  | permission (err : PermissionApplyError)
  deriving DecidableEq, Repr

structure ItemResult where
  status : ItemStatus
  outputPath : Option Path := none
  error : Option ItemError := none
  reason : Option ItemReason := none
  deriving DecidableEq, Repr

/-- Everything an item is processed with besides the world. -/
structure Service extends Env where
  directories : Directories
  permissions : Permissions := {}
  mediaRoots : List Path
  series : Option SeriesDTO := none
  fetchEpisodes : ℤ → Option (List InventoryEntry) := fun _ => none

/-- The run an item led to, and what is returned or raised after it. -/
structure ItemRun (L : Type) where
  run : Run L
  result : Except RunError ItemResult

section Process

variable (service : Service) (item : EligibleItem)

def Service.disk (fs : FileSystem) : Disk := { fs, service.directories with }

def Service.source (fs : FileSystem) : Path :=
  sourceSubPath (service.disk fs) service.settings service.series service.fetchEpisodes item

/-- The sidecar is there when its path is guarded and its mode is set. -/
def releaseOutput (fs : FileSystem) (outputPath : Path) : ItemResult :=
  match if service.mediaRoots = [] then .ok ()
    else assertWithinMediaRoots fs outputPath service.mediaRoots with
  | .error err =>
    { status := .error, outputPath := some outputPath, error := some (.traversal err) }
  | .ok () =>
    match applyPermissions service.permissions outputPath service.settings with
    | .ok () => { status := .done, outputPath := some outputPath }
    | .error err =>
      { status := .quarantined, outputPath := some outputPath, error := some (.permission err),
        reason := some (.permission err) }

def processOneItem {L : Type} [LedgerProtocol L] (w : World L) : ItemRun L :=
  let run := translateFile service.toEnv (service.source item w.fs) w
  { run
    result := run.outcome.map fun result => match result with
      | .done outputPath => releaseOutput service run.world.fs outputPath
      | .skipped => { status := .skipped }
      | .quarantined _ reason => { status := .quarantined, reason := some (.translation reason) } }

/-- A root contains the path, once links are resolved. -/
def InsideRoots (links : Links Path) (mediaRoots : List Path) (path : Path) : Prop :=
  ∃ root ∈ mediaRoots, path.isRelativeTo (links.resolve root) = true

/-- What is replaced is inside the roots, and nothing else changes. -/
structure Guarded {L : Type} [LedgerProtocol L] (w : World L) : Prop where
  confined : ∀ replaced, (processOneItem service item w).run.replaced = some replaced →
    InsideRoots w.fs.toLinks service.mediaRoots replaced
  frame : ∀ p, (processOneItem service item w).run.world.fs.file? p ≠ w.fs.file? p →
    ∃ replaced, (processOneItem service item w).run.replaced = some replaced ∧
      replaced ∈ w.fs.trail p

/-- The sidecar is in a directory inside the roots whenever the run comes to write it. -/
def WritesInside {L : Type} [LedgerProtocol L] (w : World L) : Prop :=
  ∀ job, decisionTable service.contentHash w.fs w.ledger (service.source item w.fs) =
      .ok (some job) →
    Delivers service.toEnv w.fs job →
    InsideRoots w.fs.toLinks service.mediaRoots (w.fs.entry job.dest)

/-- The sidecar passes the guard once it is written, and its mode can be set. -/
def Released (fs : FileSystem) (dest : Path) : Prop :=
  (service.mediaRoots = [] ∨
    InsideRoots (fs.settle dest) service.mediaRoots (fs.entry dest)) ∧
  service.permissions.chmod dest (fileMode service.settings.umask) = none

theorem assertWithinMediaRoots_iff {fs : FileSystem} {path : Path} {mediaRoots : List Path} :
    assertWithinMediaRoots fs path mediaRoots = .ok () ↔
      InsideRoots fs.toLinks mediaRoots (fs.resolve path) := by
  unfold assertWithinMediaRoots InsideRoots
  split
  next h => exact iff_of_true rfl (List.any_eq_true.mp h)
  next h => exact iff_of_false nofun fun hin => h (List.any_eq_true.mpr hin)

theorem applyPermissions_iff {permissions : Permissions} {path : Path}
    {settings : TrezarrSettings} : applyPermissions permissions path settings = .ok () ↔
      permissions.chmod path (fileMode settings.umask) = none := by
  unfold applyPermissions
  cases permissions.chmod path (fileMode settings.umask) with
  | none => exact iff_of_true rfl rfl
  | some err => exact iff_of_false nofun nofun

/-- It is only done when both the guard and the mode let it; it is never skipped. -/
theorem releaseOutput_status {fs : FileSystem} {dest : Path} {f : File} :
    ((releaseOutput service (fs.replace dest f) dest).status = .done ↔
      Released service fs dest) ∧
    (releaseOutput service (fs.replace dest f) dest).status ≠ .skipped := by
  have hresolve : (fs.replace dest f).resolve dest = fs.entry dest :=
    Links.resolve_settle_of_mem (fs.entry_mem dest)
  have hguard : assertWithinMediaRoots (fs.replace dest f) dest service.mediaRoots = .ok () ↔
      InsideRoots (fs.settle dest) service.mediaRoots (fs.entry dest) := by
    rw [assertWithinMediaRoots_iff, hresolve]
    rfl
  unfold releaseOutput Released
  rw [← hguard, ← applyPermissions_iff]
  by_cases hnil : service.mediaRoots = []
  · simp only [hnil, true_or, true_and]
    cases applyPermissions service.permissions dest service.settings <;> simp
  · simp only [hnil, false_or]
    cases assertWithinMediaRoots (fs.replace dest f) dest service.mediaRoots with
    | error err => simp
    | ok _ => cases applyPermissions service.permissions dest service.settings <;> simp

section Agreement

variable {L : Type} [OutputLookup L] (w : World L)

/-- The row of the source that was processed says done. -/
def RowDone (w' : World L) : Prop :=
  ∃ entry, row? w'.ledger (w.fs.resolve (service.source item w.fs)).str = some entry ∧
    entry.status = .done

/-- The row said so before, of the source as it is. -/
def AlreadyDone : Prop :=
  ∃ entry bytes, row? w.ledger (w.fs.resolve (service.source item w.fs)).str = some entry ∧
    w.fs.readBytes (service.source item w.fs) = .ok bytes ∧
    DoneUnchanged (service.contentHash bytes) entry

/-- What is returned is what the ledger says, and what failed is queued again. -/
structure OutcomeAgrees : Prop where
  done : ∀ r, (processOneItem service item w).result = .ok r →
    (RowDone service item w (processOneItem service item w).run.world ↔
      r.status = .done ∨ r.status = .skipped ∧ AlreadyDone service item w)
  retried : ∀ r, (processOneItem service item w).result = .ok r →
    r.status = .quarantined ∨ r.status = .error →
    ∃ v, isEligible service.contentHash (processOneItem service item w).run.world.fs
      item.sourceSubPath (processOneItem service item w).run.world.ledger = .ok v ∧
      v.eligible = true

/-- Once the row of the job is in quarantine, gap detection accepts the path the scan found. -/
def AcceptedAgain (job : Job) : Prop :=
  w.fs.exists? item.sourceSubPath = true ∧
    (w.fs.exists? (deriveViSidecarPath w.fs item.sourceSubPath) = true →
      item.sourceSubPath.str = job.path.str ∨
      match row? w.ledger item.sourceSubPath.str with
      | none => OutputLookup.Finds L {key | key ≠ job.path.str ∧
          key ∈ namedBy w.ledger (deriveViSidecarPath w.fs item.sourceSubPath).str}
      | some entry => entry.status = .done → ∃ bytes,
          w.fs.readBytes item.sourceSubPath = .ok bytes ∧
            entry.contentHash ≠ service.contentHash bytes)

/-- A sidecar that is written is released, and an item in quarantine is accepted again. -/
def AgreesWhen : Prop :=
  ∀ job, decisionTable service.contentHash w.fs w.ledger (service.source item w.fs) =
      .ok (some job) →
    (Delivers service.toEnv w.fs job → Released service w.fs job.dest) ∧
    (∀ reason failing, service.faults.quarantine = none →
      judge service.toEnv w.fs job.path = .quarantined reason failing none →
      AcceptedAgain service item w job)

end Agreement

end Process

/-- The media roots guard every write exactly where the sidecar is inside them anyway. -/
theorem guarded_iff {L : Type} [LawfulLedger L] (service : Service) (item : EligibleItem)
    (w : World L) : Guarded service item w ↔ WritesInside service item w := by
  have hnothing : (processOneItem service item w).run.replaced = none →
      (processOneItem service item w).run.world.fs = w.fs → Guarded service item w := by
    intro hreplaced hfs
    refine ⟨fun replaced h => ?_, fun p hp => ?_⟩
    · cases hreplaced.symm.trans h
    · rw [hfs] at hp
      exact absurd rfl hp
  rcases translateFile_aftermath service.toEnv (service.source item w.fs) w with
    ⟨err, hjob, hrun⟩ | ⟨hjob, hrun⟩ | ⟨job, hjob, hafter⟩
  · refine iff_of_true (hnothing ?_ ?_) fun job hjob' => ?_
    · exact congrArg Run.replaced hrun
    · exact congrArg (fun run => run.world.fs) hrun
    · cases hjob.symm.trans hjob'
  · refine iff_of_true (hnothing ?_ ?_) fun job hjob' => ?_
    · exact congrArg Run.replaced hrun
    · exact congrArg (fun run => run.world.fs) hrun
    · cases hjob.symm.trans hjob'
  · have hsame : ∀ job', decisionTable service.contentHash w.fs w.ledger
        (service.source item w.fs) = .ok (some job') → job' = job := by
      intro job' hjob'
      exact (Option.some.inj (Except.ok.inj (hjob.symm.trans hjob'))).symm
    cases hafter with
    | broken hdelivers _ _ hfs _ hreplaced =>
      refine iff_of_true (hnothing hreplaced hfs) fun job' hjob' hdelivers' => ?_
      exact absurd (hsame job' hjob' ▸ hdelivers') hdelivers
    | shelved _ hdelivers _ _ _ _ _ hfs _ hreplaced =>
      refine iff_of_true (hnothing hreplaced hfs) fun job' hjob' hdelivers' => ?_
      exact absurd (hsame job' hjob' ▸ hdelivers') hdelivers
    | delivered hdelivers _ _ _ _ _ _ _ content hfs _ hreplaced =>
      constructor
      · intro hguarded job' hjob' _
        rw [hsame job' hjob']
        exact hguarded.confined _ hreplaced
      · intro hinside
        refine ⟨fun replaced h => ?_, fun p hp => ⟨_, hreplaced, ?_⟩⟩
        · cases hreplaced.symm.trans h
          exact hinside job hjob hdelivers
        · by_contra hmem
          apply hp
          rw [show (processOneItem service item w).run.world.fs = _ from hfs,
            FileSystem.file?_replace, if_neg hmem]

/-- A scan that finds the English source of one episode. -/
def oneSource : Directories where
  listing dir := .ok (if dir = ("/tv/" : Str) then ["E01.en.srt"] else [])
  existsError _ := none
  listing_component := by
    intro dir names name h hname
    cases h
    split at hname
    next =>
      cases List.mem_singleton.mp hname
      decide
    next => cases hname

/-- The only root holds a link to the source, which is outside. -/
def linkedOut : World Ledger :=
  { oneEpisode with
    fs := .linking ⟨"/tv/E01.en.srt"⟩ ⟨"/other/E01.en.srt"⟩ fun p =>
      if p = ⟨"/other/E01.en.srt"⟩ then
        some { content := encodeUtf8 "1\n00:00:01,000 --> 00:00:02,000\nHi.\n", writer := .other }
      else none }

def guardedService : Service :=
  { answering "[1] Tạm biệt." with directories := oneSource, mediaRoots := [⟨"/tv"⟩] }

/-- The guard reports the sidecar that the run has put next to where the link leads. -/
theorem sidecar_outside_roots : guardedService.mediaRoots ≠ [] ∧
    ¬ Guarded guardedService englishEpisode linkedOut := by
  refine ⟨nofun, fun h => ?_⟩
  have hreplaced : (processOneItem guardedService englishEpisode linkedOut).run.replaced =
      some ⟨"/other/E01.vi.srt"⟩ := by
    decide +kernel
  obtain ⟨root, hroot, hinside⟩ := h.confined _ hreplaced
  cases List.mem_singleton.mp hroot
  revert hinside
  decide

section Outcomes

variable {L : Type} [OutputLookup L] {service : Service} {item : EligibleItem} {w : World L}
  {job : Job}

theorem agrees_of_error {err : RunError}
    (h : (translateFile service.toEnv (service.source item w.fs) w).outcome = .error err) :
    OutcomeAgrees service item w := by
  have hresult : (processOneItem service item w).result = .error err := by
    simp only [processOneItem, h]
    rfl
  refine ⟨fun r hr => ?_, fun r hr => ?_⟩
  · cases hresult.symm.trans hr
  · cases hresult.symm.trans hr

theorem agrees_of_skipped (hjob : decisionTable service.contentHash w.fs w.ledger
    (service.source item w.fs) = .ok none)
    (hrun : translateFile service.toEnv (service.source item w.fs) w =
      { world := w, outcome := .ok .skipped }) : OutcomeAgrees service item w := by
  have hresult : (processOneItem service item w).result = .ok { status := .skipped } := by
    simp only [processOneItem, hrun]
    rfl
  have hworld : (processOneItem service item w).run.world = w := congrArg Run.world hrun
  obtain ⟨bytes, hbytes, hskips⟩ := decisionTable_none hjob
  refine ⟨fun r hr => ?_, fun r hr hfailed => ?_⟩
  · cases hresult.symm.trans hr
    rw [hworld]
    constructor
    · rintro ⟨entry, hrow, hdone⟩
      rw [hrow] at hskips
      exact .inr ⟨rfl, entry, bytes, hrow, hbytes, hskips⟩
    · rintro (⟨⟨⟩⟩ | ⟨_, entry, bytes, hrow, _, hdone⟩)
      exact ⟨entry, hrow, hdone.1⟩
  · cases hresult.symm.trans hr
    rcases hfailed with ⟨⟨⟩⟩ | ⟨⟨⟩⟩

/-- A sidecar that is written leaves its row done, whatever becomes of the item. -/
theorem agrees_of_delivered {entry : LedgerEntry} {content : Bytes}
    (hpath : job.path = w.fs.resolve (service.source item w.fs))
    (hsource : entry.sourcePath = job.path.str) (hstatus : entry.status = .done)
    (hrow : RowSet entry w (processOneItem service item w).run.world)
    (hfs : (processOneItem service item w).run.world.fs =
      w.fs.replace job.dest ⟨content, .trezarr, none⟩)
    (houtcome : (processOneItem service item w).run.outcome = .ok (.done job.dest)) :
    OutcomeAgrees service item w ↔ Released service w.fs job.dest := by
  have hresult : (processOneItem service item w).result = .ok (releaseOutput service
      (w.fs.replace job.dest ⟨content, .trezarr, none⟩) job.dest) := by
    rw [← hfs]
    exact congrArg (Except.map _) houtcome
  have hdone : RowDone service item w (processOneItem service item w).run.world := by
    refine ⟨entry, ?_, hstatus⟩
    rw [hrow, if_pos (by rw [hsource, hpath])]
  obtain ⟨hreleased, hnot⟩ := @releaseOutput_status service w.fs job.dest
    ⟨content, .trezarr, none⟩
  constructor
  · intro hagrees
    rcases (hagrees.done _ hresult).mp hdone with hstatus | ⟨hskipped, _⟩
    · exact hreleased.mp hstatus
    · exact absurd hskipped hnot
  · intro hrel
    have hstatus := hreleased.mpr hrel
    refine ⟨fun r hr => ?_, fun r hr hfailed => ?_⟩
    · cases hresult.symm.trans hr
      exact iff_of_true hdone (.inl hstatus)
    · cases hresult.symm.trans hr
      rw [hstatus] at hfailed
      rcases hfailed with ⟨⟨⟩⟩ | ⟨⟨⟩⟩

/-- A row in quarantine never says done, so all depends on the path the scan found. -/
theorem agrees_of_shelved {entry : LedgerEntry} {reason : Reason} {quarantinePath : Path}
    (hpath : job.path = w.fs.resolve (service.source item w.fs))
    (hsource : entry.sourcePath = job.path.str) (houtput : entry.outputPath = none)
    (hstatus : entry.status = .quarantined)
    (hrow : RowSet entry w (processOneItem service item w).run.world)
    (hfs : (processOneItem service item w).run.world.fs = w.fs)
    (houtcome : (processOneItem service item w).run.outcome =
      .ok (.quarantined quarantinePath reason)) :
    OutcomeAgrees service item w ↔ AcceptedAgain service item w job := by
  have hresult : (processOneItem service item w).result =
      .ok { status := .quarantined, reason := some (.translation reason) } :=
    congrArg (Except.map _) houtcome
  have hdone : ¬ RowDone service item w (processOneItem service item w).run.world := by
    rintro ⟨entry', hrow', hdone⟩
    rw [hrow, if_pos (by rw [hsource, hpath])] at hrow'
    cases hrow'
    cases hstatus.symm.trans hdone
  have heligible : (∃ v, isEligible service.contentHash
      (processOneItem service item w).run.world.fs item.sourceSubPath
      (processOneItem service item w).run.world.ledger = .ok v ∧ v.eligible = true) ↔
      AcceptedAgain service item w job := by
    rw [isEligible_eligible_iff, hfs]
    unfold AcceptedAgain
    refine and_congr_right fun _ => imp_congr_right fun _ => ?_
    rw [hrow, hsource]
    by_cases hkey : item.sourceSubPath.str = job.path.str
    · rw [if_pos hkey]
      refine iff_of_true (fun hdone' => ?_) (.inl hkey)
      cases hstatus.symm.trans hdone'
    · rw [if_neg hkey, or_iff_right hkey]
      cases row? w.ledger item.sourceSubPath.str with
      | some old => rfl
      | none =>
        dsimp only
        have hkeys : namedBy (processOneItem service item w).run.world.ledger
            (deriveViSidecarPath w.fs item.sourceSubPath).str = {key | key ≠ job.path.str ∧
              key ∈ namedBy w.ledger (deriveViSidecarPath w.fs item.sourceSubPath).str} := by
          rw [namedBy_rowSet hrow, hsource, houtput]
          ext key
          simp only [Set.mem_ofPred_eq]
          by_cases hjob : key = job.path.str
          · simp [hjob]
          · simp [hjob]
        rw [OutputLookup.finds_iff, hkeys]
  constructor
  · intro hagrees
    exact heligible.mp (hagrees.retried _ hresult (.inl rfl))
  · intro haccepted
    refine ⟨fun r hr => ?_, fun r hr _ => heligible.mpr haccepted⟩
    cases hresult.symm.trans hr
    refine iff_of_false hdone ?_
    rintro (⟨⟨⟩⟩ | ⟨⟨⟩, _⟩)

theorem agreesWhen_of_job (hjob : decisionTable service.contentHash w.fs w.ledger
    (service.source item w.fs) = .ok (some job)) : AgreesWhen service item w ↔
      (Delivers service.toEnv w.fs job → Released service w.fs job.dest) ∧
      (∀ reason failing, service.faults.quarantine = none →
        judge service.toEnv w.fs job.path = .quarantined reason failing none →
        AcceptedAgain service item w job) := by
  constructor
  · exact fun h => h job hjob
  · intro h job' hjob'
    cases hjob.symm.trans hjob'
    exact h

end Outcomes

/-- Result and ledger agree exactly when what is written is released and what is put in
quarantine is found again. -/
theorem outcome_agrees_iff {L : Type} [OutputLookup L] (service : Service) (item : EligibleItem)
    (w : World L) : OutcomeAgrees service item w ↔ AgreesWhen service item w := by
  rcases translateFile_aftermath service.toEnv (service.source item w.fs) w with
    ⟨err, hjob, hrun⟩ | ⟨hjob, hrun⟩ | ⟨job, hjob, hafter⟩
  · refine iff_of_true (agrees_of_error (congrArg Run.outcome hrun)) fun job hjob' => ?_
    cases hjob.symm.trans hjob'
  · refine iff_of_true (agrees_of_skipped hjob hrun) fun job hjob' => ?_
    cases hjob.symm.trans hjob'
  · rw [agreesWhen_of_job hjob]
    have hpath : job.path = w.fs.resolve (service.source item w.fs) := (decisionTable_job hjob).1
    cases hafter with
    | broken hdelivers hshelves _ _ _ _ err houtcome =>
      refine iff_of_true (agrees_of_error houtcome) ⟨fun h => absurd h hdelivers, ?_⟩
      intro reason failing hfault hjudge
      exact absurd ⟨hfault, reason, failing, none, hjudge⟩ hshelves
    | shelved hshelves hdelivers entry hsource houtput hstatus hrow hfs _ _ reason failing besides
        hjudge houtcome =>
      cases besides with
      | none =>
        rw [agrees_of_shelved hpath hsource houtput hstatus hrow hfs houtcome]
        constructor
        · exact fun haccepted => ⟨fun h => absurd h hdelivers, fun _ _ _ _ => haccepted⟩
        · exact fun h => h.2 reason failing hshelves.1 hjudge
      | some err =>
        refine iff_of_true (agrees_of_error houtcome) ⟨fun h => absurd h hdelivers, ?_⟩
        intro reason' failing' _ hjudge'
        cases hjudge.symm.trans hjudge'
    | delivered hdelivers hshelves entry hsource _ hstatus _ hrow content hfs _ _ houtcome =>
      rw [agrees_of_delivered hpath hsource hstatus hrow hfs houtcome]
      constructor
      · refine fun hreleased => ⟨fun _ => hreleased, ?_⟩
        intro reason failing hfault hjudge
        exact absurd ⟨hfault, reason, failing, none, hjudge⟩ hshelves
      · exact fun h => h.1 hdelivers

def refusingService : Service :=
  { guardedService with
    permissions := { chmod := fun _ _ => some (.failed "Operation not permitted") } }

/-- A sidecar whose mode cannot be set is reported in quarantine, and its row says done. -/
theorem quarantined_though_done :
    ¬ OutcomeAgrees refusingService englishEpisode oneEpisode := by
  intro h
  have hend : (row? (processOneItem refusingService englishEpisode oneEpisode).run.world.ledger
        (oneEpisode.fs.resolve (refusingService.source englishEpisode oneEpisode.fs)).str).map
          LedgerEntry.status = some .done ∧
      (processOneItem refusingService englishEpisode oneEpisode).result.map ItemResult.status =
        .ok .quarantined := by
    decide +kernel
  obtain ⟨hrow, hstatus⟩ := hend
  obtain ⟨entry, hentry, hdone⟩ := Option.map_eq_some_iff.mp hrow
  obtain ⟨r, hresult, hr⟩ := map_ok hstatus
  rcases (h.done r hresult).mp ⟨entry, hentry, hdone⟩ with hd | ⟨hs, _⟩
  · cases hr.symm.trans hd
  · cases hr.symm.trans hs

end Trezarr
