import Trezarr.Cli
import Trezarr.Discover.Poll

/-! Whether an item that has been processed is reported by the next scan. -/
namespace Trezarr
open Text Fallible LedgerProtocol LawfulLedger

/-- What the sidecar of a job will hold, when the run gets to replace it. -/
def Writes (env : Env) (fs : FileSystem) (job : Job) (content : Bytes) : Prop :=
  env.faults.sidecar = none ∧
    ∃ doc, judge env fs job.path = .accepted doc ∧ Emits job.dest doc content

/-- Why a scan does not report a file, given its row and the sources that name its sidecar. -/
inductive PassedOver (L : Type) [OutputLookup L] (contentHash : Bytes → Str) (fs : FileSystem)
    (row : Option LedgerEntry) (named : Set Str) (path : Path) : Prop
  | gone (hgone : fs.exists? path = false)
  | unchanged (entry : LedgerEntry) (hrow : row = some entry) (hdone : entry.status = .done)
      (hsidecar : fs.exists? (deriveViSidecarPath fs path) = true)
      (hsame : ∀ bytes, fs.readBytes path = .ok bytes → entry.contentHash = contentHash bytes)
  | foreign (hrow : row = none) (hsidecar : fs.exists? (deriveViSidecarPath fs path) = true)
      (hnamed : ¬ OutputLookup.Finds L named)

section Service

variable (service : Service) (item : EligibleItem)

/-- The directories with what the run has put there. -/
def Service.directoriesAfter {L : Type} (run : Run L) : Directories :=
  match run.replaced with
  | none => service.directories
  | some entry => service.directories.withEntry run.world.fs.toLinks entry

def Service.diskAfter {L : Type} (run : Run L) : Disk :=
  { run.world.fs, service.directoriesAfter run with }

/-- The file a scan of these directories finds for the item. -/
def ScanFinds (directories : Directories) (fs : FileSystem) (path : Path) : Prop :=
  ∃ mediaPath lang, item.mediaItem.localPath = some mediaPath ∧
    findSourceSub { fs, directories with } mediaPath service.settings.sourceLangPriority =
      some (path, lang)

/-- An item that comes to its end is not reported again. -/
def Converges {L : Type} [LedgerProtocol L] (w : World L) : Prop :=
  ∀ r, (processOneItem service item w).result = .ok r → r.status = .done ∨ r.status = .skipped →
    Unreported service.contentHash (service.diskAfter (processOneItem service item w).run)
      (processOneItem service item w).run.world.ledger service.settings.sourceLangPriority
      item.mediaItem

/-- The source that was used is passed over unless its own translation has replaced it; any other
file the scan finds has to be passed over for reasons of its own. -/
structure ConvergesWhen {L : Type} [OutputLookup L] (w : World L) : Prop where
  skipped : decisionTable service.contentHash w.fs w.ledger (service.source item w.fs) = .ok none →
    ∀ path, ScanFinds service item service.directories w.fs path →
      PassedOver L service.contentHash w.fs (row? w.ledger path.str)
        (namedBy w.ledger (deriveViSidecarPath w.fs path).str) path
  done : ∀ job content,
    decisionTable service.contentHash w.fs w.ledger (service.source item w.fs) = .ok (some job) →
    Writes service.toEnv w.fs job content → Released service w.fs job.dest →
    ∀ path, ScanFinds service item
        (service.directories.withEntry w.fs.toLinks (w.fs.entry job.dest)) w.fs path →
      if path = job.path then
        w.fs.entry job.dest = job.path → service.contentHash content = job.contentHash
      else
        let fs := w.fs.replace job.dest ⟨content, .trezarr, none⟩
        PassedOver L service.contentHash fs (row? w.ledger path.str)
          {key | if key = job.path.str then job.dest = deriveViSidecarPath fs path
            else key ∈ namedBy w.ledger (deriveViSidecarPath fs path).str} path

end Service

section Passing

variable {L : Type} [OutputLookup L] {contentHash : Bytes → Str} {fs : FileSystem} {ledger : L}
  {path : Path}

theorem passedOver_iff :
    PassedOver L contentHash fs (row? ledger path.str)
        (namedBy ledger (deriveViSidecarPath fs path).str) path ↔
      ¬ ∃ verdict, isEligible contentHash fs path ledger = .ok verdict ∧
        verdict.eligible = true := by
  rw [isEligible_eligible_iff]
  constructor
  · rintro (hgone | ⟨entry, hrow, hdone, hsidecar, hsame⟩ | ⟨hrow, hsidecar, hnamed⟩)
      ⟨hexists, heligible⟩
    · cases hgone.symm.trans hexists
    · have hchanged := heligible hsidecar
      rw [hrow] at hchanged
      obtain ⟨bytes, hbytes, hne⟩ := hchanged hdone
      exact hne (hsame bytes hbytes)
    · have hfound := heligible hsidecar
      rw [hrow] at hfound
      exact hnamed (OutputLookup.finds_iff.mp hfound)
  · intro h
    by_cases hexists : fs.exists? path = true
    · have hsidecar : fs.exists? (deriveViSidecarPath fs path) = true := by
        by_contra hnone
        exact h ⟨hexists, fun hsome => absurd hsome hnone⟩
      cases hrow : row? ledger path.str with
      | none =>
        refine .foreign rfl hsidecar fun hfinds => h ⟨hexists, fun _ => ?_⟩
        rw [hrow]
        exact OutputLookup.finds_iff.mpr hfinds
      | some entry =>
        rw [hrow] at h
        by_cases hdone : entry.status = .done
        · refine .unchanged entry rfl hdone hsidecar fun bytes hbytes => ?_
          by_contra hne
          exact h ⟨hexists, fun _ _ => ⟨bytes, hbytes, hne⟩⟩
        · exact absurd ⟨hexists, fun _ hd => absurd hd hdone⟩ h
    · exact .gone (Bool.eq_false_iff.mpr hexists)

end Passing

section Writes

variable {env : Env} {fs : FileSystem} {job : Job} {content content' : Bytes}

theorem Writes.delivers (h : Writes env fs job content) : Delivers env fs job := by
  obtain ⟨hfault, doc, hjudge, format, text, hformat, hwrite, _⟩ := h
  refine ⟨hfault, doc, hjudge, ?_⟩
  rw [sidecarText, hformat]
  exact Option.isSome_iff_exists.mpr ⟨text, hwrite⟩

theorem Writes.of_delivers (h : Delivers env fs job) : ∃ content, Writes env fs job content := by
  obtain ⟨hfault, doc, hjudge, htext⟩ := h
  obtain ⟨text, htext⟩ := Option.isSome_iff_exists.mp htext
  obtain ⟨format, hformat, hwrite⟩ := Option.bind_eq_some_iff.mp htext
  exact ⟨encodeUtf8 text, hfault, doc, hjudge, format, text, hformat, hwrite, rfl⟩

theorem Writes.unique (h : Writes env fs job content) (h' : Writes env fs job content') :
    content = content' := by
  obtain ⟨_, doc, hjudge, format, text, hformat, hwrite, rfl⟩ := h
  obtain ⟨_, doc', hjudge', format', text', hformat', hwrite', rfl⟩ := h'
  cases hjudge.symm.trans hjudge'
  cases hformat.symm.trans hformat'
  cases hwrite.symm.trans hwrite'
  rfl

/-- What a run writes is what its source was judged to. -/
theorem Writes.fs_eq {L : Type} [LawfulLedger L] {w : World L} {path : Path}
    (hjob : decisionTable env.contentHash w.fs w.ledger path = .ok (some job))
    (h : Writes env w.fs job content) :
    (translateFile env path w).world.fs = w.fs.replace job.dest ⟨content, .trezarr, none⟩ := by
  obtain ⟨hfault, doc, hjudge, format, text, hformat, hwrite, rfl⟩ := h
  obtain ⟨w', hstarted, hrun⟩ := start_eq env job w
  have hwritten : writeViSidecar env job w' doc =
      .ok { w' with fs := w'.fs.replace job.dest ⟨encodeUtf8 text, .trezarr, none⟩ } := by
    simp only [writeViSidecar, hfault, hformat, Option.bind_some, hwrite]
  have hfinish : (finish env job w' doc).world.fs =
      w'.fs.replace job.dest ⟨encodeUtf8 text, .trezarr, none⟩ := by
    unfold finish
    rw [hwritten]
    exact recordEntry_fs _ _
  have hend : (readAndTranslate env job w').world.fs = (finish env job w' doc).world.fs := by
    rw [sameEnd_readAndTranslate.world, hstarted.fs, hjudge]
    rfl
  unfold translateFile
  rw [hjob]
  rw [← hstarted.fs]
  exact (congrArg (fun run => run.world.fs) hrun).trans (hend.trans hfinish)

end Writes

section Outcomes

variable {L : Type} [OutputLookup L] {service : Service} {item : EligibleItem} {w : World L}
  {job : Job} {path : Path} {content : Bytes}

/-- A run that does not end well leaves nothing to converge. -/
theorem converges_of_unfinished (h : ∀ r, (processOneItem service item w).result = .ok r →
    r.status ≠ .done ∧ r.status ≠ .skipped) : Converges service item w := by
  intro r hr hstatus
  rcases hstatus with hdone | hskipped
  · exact absurd hdone (h r hr).1
  · exact absurd hskipped (h r hr).2

theorem unreported_iff_passedOver {directories : Directories} {fs : FileSystem} {ledger : L} :
    Unreported service.contentHash { fs, directories with } ledger
        service.settings.sourceLangPriority item.mediaItem ↔
      ∀ path, ScanFinds service item directories fs path →
        PassedOver L service.contentHash fs (row? ledger path.str)
          (namedBy ledger (deriveViSidecarPath fs path).str) path := by
  rw [unreported_iff]
  simp only [passedOver_iff]
  constructor
  · rintro h path ⟨mediaPath, lang, hmedia, hfound⟩
    exact h mediaPath path lang hmedia hfound
  · intro h mediaPath path lang hmedia hfound
    exact h path ⟨mediaPath, lang, hmedia, hfound⟩

theorem converges_of_skipped
    (hjob : decisionTable service.contentHash w.fs w.ledger (service.source item w.fs) = .ok none)
    (hrun : translateFile service.toEnv (service.source item w.fs) w =
      { world := w, outcome := .ok .skipped }) :
    Converges service item w ↔ ConvergesWhen service item w := by
  have hresult : (processOneItem service item w).result = .ok { status := .skipped } := by
    simp only [processOneItem, hrun]
    rfl
  have hworld : (processOneItem service item w).run.world = w := congrArg Run.world hrun
  have hdisk : service.diskAfter (processOneItem service item w).run =
      { w.fs, service.directories with } := by
    have hreplaced : (processOneItem service item w).run.replaced = none :=
      congrArg Run.replaced hrun
    simp only [Service.diskAfter, Service.directoriesAfter, hreplaced, hworld]
  constructor
  · intro h
    refine ⟨fun _ => ?_, fun job _ hjob' => ?_⟩
    · have hquiet := h _ hresult (.inr rfl)
      rw [hdisk, hworld, unreported_iff_passedOver] at hquiet
      exact hquiet
    · cases hjob.symm.trans hjob'
  · intro h r hr _
    rw [hdisk, hworld, unreported_iff_passedOver]
    exact h.skipped hjob

/-- The source that was used says done, and of its content unless that was replaced. -/
theorem passedOver_source {entry : LedgerEntry} {named : Set Str}
    (hjob : decisionTable service.contentHash w.fs w.ledger path = .ok (some job))
    (hstatus : entry.status = .done) (hhash : entry.contentHash = job.contentHash) :
    PassedOver L service.contentHash (w.fs.replace job.dest ⟨content, .trezarr, none⟩)
        (some entry) named job.path ↔
      (w.fs.entry job.dest = job.path → service.contentHash content = job.contentHash) := by
  obtain ⟨hpath, hdest, bytes, hbytes, hbyteshash, _⟩ := decisionTable_job hjob
  have hself : w.fs.resolve job.path = job.path := by
    rw [hpath, Links.resolve_resolve]
  have hresolve : (w.fs.replace job.dest ⟨content, .trezarr, none⟩).resolve job.path = job.path :=
    Links.resolve_settle_of_eq hself
  have hderive : deriveViSidecarPath (w.fs.replace job.dest ⟨content, .trezarr, none⟩) job.path =
      job.dest := by
    rw [deriveViSidecarPath_eq, hresolve, hdest, deriveViSidecarPath_eq, hpath]
  have hsidecar : (w.fs.replace job.dest ⟨content, .trezarr, none⟩).exists? job.dest = true := by
    rw [FileSystem.exists?, FileSystem.file?_replace_self]
    rfl
  have hread : (w.fs.replace job.dest ⟨content, .trezarr, none⟩).readBytes job.path =
      .ok (if w.fs.entry job.dest = job.path then content else bytes) := by
    have hbytes' : w.fs.readBytes job.path = .ok bytes := by
      rw [hpath]
      exact FileSystem.readBytes_resolve_ok hbytes
    unfold FileSystem.readBytes at hbytes' ⊢
    rw [FileSystem.file?_replace, Links.trail_of_resolve_eq hself]
    simp only [List.mem_singleton]
    by_cases hreplaced : w.fs.entry job.dest = job.path
    · simp only [if_pos hreplaced]
    · simp only [if_neg hreplaced]
      exact hbytes'
  constructor
  · intro hpassed hreplaced
    rw [if_pos hreplaced] at hread
    cases hpassed with
    | gone hgone =>
      have hexists := FileSystem.exists?_of_readBytes hread
      cases hgone.symm.trans hexists
    | unchanged entry' hrow _ _ hsame =>
      cases hrow
      exact (hsame content hread).symm.trans hhash
    | foreign hrow => cases hrow
  · intro hkept
    refine .unchanged entry rfl hstatus (hderive.symm ▸ hsidecar) fun bytes' hbytes' => ?_
    cases hread.symm.trans hbytes'
    rw [hhash]
    split
    next hreplaced => exact (hkept hreplaced).symm
    next => exact hbyteshash

theorem converges_of_delivered {entry : LedgerEntry}
    (hjob : decisionTable service.contentHash w.fs w.ledger (service.source item w.fs) =
      .ok (some job))
    (hwrites : Writes service.toEnv w.fs job content)
    (hsource : entry.sourcePath = job.path.str) (houtput : entry.outputPath = some job.dest.str)
    (hstatus : entry.status = .done) (hhash : entry.contentHash = job.contentHash)
    (hrow : RowSet entry w (processOneItem service item w).run.world)
    (hreplaced : (processOneItem service item w).run.replaced = some (w.fs.entry job.dest))
    (houtcome : (processOneItem service item w).run.outcome = .ok (.done job.dest)) :
    Converges service item w ↔ ConvergesWhen service item w := by
  have hfs : (processOneItem service item w).run.world.fs =
      w.fs.replace job.dest ⟨content, .trezarr, none⟩ := hwrites.fs_eq hjob
  have hresult : (processOneItem service item w).result = .ok (releaseOutput service
      (w.fs.replace job.dest ⟨content, .trezarr, none⟩) job.dest) := by
    rw [← hfs]
    exact congrArg (Except.map _) houtcome
  obtain ⟨hreleased, hnot⟩ := @releaseOutput_status service w.fs job.dest
    ⟨content, .trezarr, none⟩
  have hdirectories : service.directoriesAfter (processOneItem service item w).run =
      service.directories.withEntry w.fs.toLinks (w.fs.entry job.dest) := by
    simp only [Service.directoriesAfter, hreplaced, hfs]
    exact Directories.withEntry_congr fun p => Links.entry_settle _ _ _
  have hquiet : Unreported service.contentHash
        (service.diskAfter (processOneItem service item w).run)
        (processOneItem service item w).run.world.ledger service.settings.sourceLangPriority
        item.mediaItem ↔
      ∀ path, ScanFinds service item
          (service.directories.withEntry w.fs.toLinks (w.fs.entry job.dest)) w.fs path →
        if path = job.path then
          w.fs.entry job.dest = job.path → service.contentHash content = job.contentHash
        else
          let fs := w.fs.replace job.dest ⟨content, .trezarr, none⟩
          PassedOver L service.contentHash fs (row? w.ledger path.str)
            {key | if key = job.path.str then job.dest = deriveViSidecarPath fs path
              else key ∈ namedBy w.ledger (deriveViSidecarPath fs path).str} path := by
    unfold Service.diskAfter
    rw [hdirectories, hfs, unreported_iff_passedOver]
    refine forall_congr' fun path => imp_congr_right fun _ => ?_
    rw [hrow path.str, namedBy_rowSet hrow, hsource, houtput]
    split
    next hkey =>
      rw [Path.eq_of_str hkey, if_pos rfl]
      exact passedOver_source hjob hstatus hhash
    next hkey =>
      rw [if_neg fun heq => hkey (congrArg Path.str heq)]
      have hnames : ∀ dest : Path, (some job.dest.str = some dest.str) = (job.dest = dest) := by
        intro dest
        exact propext ⟨fun h => Path.eq_of_str (Option.some.inj h), fun h => by rw [h]⟩
      simp only [hnames]
  constructor
  · intro h
    refine ⟨fun hskip => ?_, fun job' content' hjob' hwrites' hrel => ?_⟩
    · cases hjob.symm.trans hskip
    · cases hjob.symm.trans hjob'
      cases hwrites.unique hwrites'
      exact hquiet.mp (h _ hresult (.inl (hreleased.mpr hrel)))
  · intro h r hr hends
    cases hresult.symm.trans hr
    rcases hends with hdone | hskipped
    · exact hquiet.mpr (h.done job content hjob hwrites (hreleased.mp hdone))
    · exact absurd hskipped hnot

end Outcomes

/-- A scan is done with an item that has been processed just when it passes over the file it then
finds for it. -/
theorem poll_converges_iff {L : Type} [OutputLookup L] (service : Service) (item : EligibleItem)
    (w : World L) : Converges service item w ↔ ConvergesWhen service item w := by
  rcases translateFile_aftermath service.toEnv (service.source item w.fs) w with
    ⟨err, hjob, hrun⟩ | ⟨hjob, hrun⟩ | ⟨job, hjob, hafter⟩
  · have hresult : (processOneItem service item w).result = .error (.decision err) := by
      simp only [processOneItem, hrun]
      rfl
    refine iff_of_true (converges_of_unfinished fun r hr => ?_) ⟨fun hjob' => ?_, fun _ _ hjob' => ?_⟩
    · cases hresult.symm.trans hr
    · cases hjob.symm.trans hjob'
    · cases hjob.symm.trans hjob'
  · exact converges_of_skipped hjob hrun
  · have hunwritten : ¬ Delivers service.toEnv w.fs job → ConvergesWhen service item w := by
      intro hdelivers
      refine ⟨fun hjob' => ?_, fun job' content hjob' hwrites => ?_⟩
      · cases hjob.symm.trans hjob'
      · cases hjob.symm.trans hjob'
        exact absurd hwrites.delivers hdelivers
    cases hafter with
    | broken hdelivers _ _ _ _ _ err houtcome =>
      refine iff_of_true (converges_of_unfinished fun r hr => ?_) (hunwritten hdelivers)
      have hresult : (processOneItem service item w).result = .error err :=
        congrArg (Except.map _) houtcome
      cases hresult.symm.trans hr
    | shelved _ hdelivers _ _ _ _ _ _ _ _ reason failing besides _ houtcome =>
      refine iff_of_true (converges_of_unfinished fun r hr => ?_) (hunwritten hdelivers)
      cases besides with
      | none =>
        have hresult : (processOneItem service item w).result =
            .ok { status := .quarantined, reason := some (.translation reason) } :=
          congrArg (Except.map _) houtcome
        cases hresult.symm.trans hr
        exact ⟨ItemStatus.noConfusion, ItemStatus.noConfusion⟩
      | some err =>
        have hresult : (processOneItem service item w).result = .error (.python err) :=
          congrArg (Except.map _) houtcome
        cases hresult.symm.trans hr
    | delivered hdelivers _ entry hsource houtput hstatus hhash hrow _ _ _ hreplaced houtcome =>
      obtain ⟨content, hwrites⟩ := Writes.of_delivers hdelivers
      exact converges_of_delivered hjob hwrites hsource houtput hstatus hhash hrow hreplaced
        houtcome

/-- An episode with an English and a Korean source. -/
def twoSources : World Ledger :=
  { oneEpisode with
    fs := .linking ⟨"/link"⟩ ⟨"/link"⟩ fun p =>
      if p = ⟨"/tv/E01.en.srt"⟩ ∨ p = ⟨"/tv/E01.ko.srt"⟩ then
        some { content := encodeUtf8 "1\n00:00:01,000 --> 00:00:02,000\nHi.\n", writer := .other }
      else none }

def koreanService : Service :=
  { answering "[1] Tạm biệt." with
    directories := tvDirectory ["E01.en.srt", "E01.ko.srt"] (by decide)
    mediaRoots := [] }

/-- The scan asks for the English source, which the run has passed over for the Korean one. -/
theorem reported_again :
    (scanForEligibleItems koreanService.contentHash (koreanService.disk twoSources.fs)
      twoSources.ledger koreanService.settings.sourceLangPriority [englishEpisode.mediaItem]).map
        Prod.fst = .ok [englishEpisode] ∧
      ¬ Converges koreanService englishEpisode twoSources := by
  refine ⟨by decide, fun h => ?_⟩
  have hend : (processOneItem koreanService englishEpisode twoSources).result.map
        ItemResult.status = .ok .done ∧
      (scanForEligibleItems koreanService.contentHash
        (koreanService.diskAfter (processOneItem koreanService englishEpisode twoSources).run)
        (processOneItem koreanService englishEpisode twoSources).run.world.ledger
        koreanService.settings.sourceLangPriority [englishEpisode.mediaItem]).map Prod.fst =
          .ok [englishEpisode] := by
    decide +kernel
  obtain ⟨r, hresult, hdone⟩ := map_ok hend.1
  obtain ⟨⟨eligible, stats⟩, hscan, heligible⟩ := map_ok hend.2
  cases heligible
  exact h r hresult (.inl hdone) _ _ stats hscan _ List.mem_cons_self rfl

end Trezarr
