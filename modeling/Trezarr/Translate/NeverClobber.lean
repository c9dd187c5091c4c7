import Trezarr.Lib.Runs
import Trezarr.Translate.Endings

/-! Runs between changes by others: which files at sidecar paths may be overwritten. -/
namespace Trezarr
open Text Runs LawfulLedger LedgerProtocol

inductive Event
  | run (env : Env) (path : Path)
  | write (path : Path) (content : Bytes) (readError : Option Str)
  | delete (path : Path)

section Never

variable {L : Type} [LawfulLedger L] {w : World L} {p d : Path} {f : File}

def World.step (w : World L) : Event → World L
  | .run env path => (translateFile env path w).world
  | .write path content readError =>
    { w with fs := w.fs.put path (some ⟨content, .other, readError⟩) }
  | .delete path => { w with fs := w.fs.put path none }

/-- Somebody else wrote what is there. -/
def Foreign (fs : FileSystem) (d : Path) : Prop := ∃ f, fs.file? d = some f ∧ f.writer = .other

/-- A run leaves every foreign file at a sidecar path as it is. -/
def NoClobber (w : World L) : Event → Prop
  | .run env path => ∀ p, Foreign w.fs (deriveViSidecarPath w.fs p) →
    (w.step (.run env path)).fs.file? (deriveViSidecarPath w.fs p) =
      w.fs.file? (deriveViSidecarPath w.fs p)
  | _ => True

/-- Where the sidecar is foreign, the rows do not let the run proceed. -/
def Unclaimed (w : World L) : Event → Prop
  | .run env path => ∀ bytes, w.fs.readBytes path = .ok bytes →
    Foreign w.fs (deriveViSidecarPath w.fs path) →
    ¬ Proceeds (env.contentHash bytes) (row? w.ledger (w.fs.resolve path).str)
      (checkByOutputPath w.ledger (deriveViSidecarPath w.fs path).str)
  | _ => True

/-- A row is kept under a source with this sidecar, or names it. -/
def Claimed (w : World L) (d : Path) : Prop :=
  (∃ q entry, row? w.ledger (w.fs.resolve q).str = some entry ∧
    w.fs.resolve (deriveViSidecarPath w.fs q) = w.fs.resolve d) ∨
  ∃ q key entry, row? w.ledger key = some entry ∧ entry.outputPath = some q.str ∧
    w.fs.resolve q = w.fs.resolve d

/-- Others write no file where a row says that the translation is. -/
def LeavesClaimed (w : World L) : Event → Prop
  | .write path _ _ => ¬ Claimed w path
  | _ => True

def ForeignUnclaimed (w : World L) : Prop := ∀ d, Foreign w.fs d → ¬ Claimed w d

/-- What a run can do to the world. -/
theorem translateFile_cases (env : Env) (path : Path) (w : World L) :
    ((translateFile env path w).world = w) ∨
    ∃ job, decisionTable env.contentHash w.fs w.ledger path = .ok (some job) ∧
      RecordedFor job w.ledger (translateFile env path w).world.ledger ∧
      ((translateFile env path w).world.fs = w.fs ∨ ∃ content,
        (translateFile env path w).world.fs =
          w.fs.replace job.dest ⟨content, .trezarr, none⟩) := by
  unfold translateFile
  split
  next => exact .inl rfl
  next => exact .inl rfl
  next job hjob =>
    refine .inr ⟨job, hjob, recordedFor_start, ?_⟩
    have htouched : Touched job w.fs (start env job w) := touched_start
    cases htouched with
    | kept _ hfs _ => exact .inl hfs
    | failed _ _ _ hfs _ => exact .inl hfs
    | written _ content _ _ hfs _ => exact .inr ⟨content, hfs⟩

theorem Foreign.exists {fs : FileSystem} (h : Foreign fs d) : fs.exists? d = true := by
  obtain ⟨f, hf, _⟩ := h
  simp [FileSystem.exists?, hf]

theorem Foreign.of_resolve {fs : FileSystem} {q : Path} (h : Foreign fs d)
    (hq : fs.resolve d = fs.resolve q) : Foreign fs q := by
  obtain ⟨f, hf, hother⟩ := h
  refine ⟨f, ?_, hother⟩
  unfold FileSystem.file? at hf ⊢
  rwa [← hq]

/-- What a name leads through is as foreign as the name. -/
theorem Foreign.of_entry_mem {fs : FileSystem} {q : Path} (h : Foreign fs d)
    (hq : fs.entry q ∈ fs.trail d) : Foreign fs q :=
  h.of_resolve ((fs.resolve_of_mem hq).symm.trans (fs.resolve_entry q))

/-- The table lets no run proceed over a foreign file that is unclaimed. -/
theorem noClobber_of_unclaimed {e : Event} (h : Unclaimed w e) : NoClobber w e := by
  cases e with
  | write path content readError => trivial
  | delete path => trivial
  | run env path =>
    intro p hforeign
    show (translateFile env path w).world.fs.file? _ = _
    rcases translateFile_cases env path w with hsame | ⟨job, hjob, _, hfs | ⟨content, hfs⟩⟩
    · rw [hsame]
    · rw [hfs]
    · obtain ⟨hpath, hdest, bytes, hbytes, hhash, hproceeds⟩ := decisionTable_job hjob
      rw [hfs, FileSystem.file?_replace, if_neg]
      intro hmem
      have hforeign' : Foreign w.fs job.dest := hforeign.of_entry_mem hmem
      have hrows := hproceeds hforeign'.exists
      rw [hpath, hdest, hhash] at hrows
      exact h bytes hbytes (hdest ▸ hforeign') hrows

/-- A run that ends well has written the sidecar. -/
theorem translateFile_done {env : Env} {path dest : Path}
    (h : (translateFile env path w).outcome = .ok (.done dest)) : ∃ content,
      (translateFile env path w).world.fs =
        w.fs.replace (deriveViSidecarPath w.fs path) ⟨content, .trezarr, none⟩ := by
  unfold translateFile at h ⊢
  split at h
  next => cases h
  next => cases h
  next job hjob =>
    have htouched : Touched job w.fs (start env job w) := touched_start
    cases htouched with
    | kept _ _ hdone => exact absurd h (hdone dest)
    | failed _ _ _ _ houtcome => cases houtcome.symm.trans h
    | written _ content _ _ hfs _ => exact ⟨content, (decisionTable_job hjob).2.1 ▸ hfs⟩

/-- So for a run that ends well the condition is exact. -/
theorem noClobber_iff_unclaimed {env : Env} {path dest : Path}
    (h : (translateFile env path w).outcome = .ok (.done dest)) :
    NoClobber w (.run env path) ↔ Unclaimed w (.run env path) := by
  refine ⟨fun hkeeps bytes _ hforeign _ => ?_, noClobber_of_unclaimed⟩
  obtain ⟨content, hfs⟩ := translateFile_done h
  have hkept : (translateFile env path w).world.fs.file? _ = _ := hkeeps path hforeign
  obtain ⟨f, hf, hother⟩ := hforeign
  rw [hfs, hf, FileSystem.file?_replace_self] at hkept
  cases hkept
  cases hother

theorem claimed_of_proceeds {hash : Str}
    (h : Proceeds hash (row? w.ledger (w.fs.resolve p).str)
      (checkByOutputPath w.ledger (deriveViSidecarPath w.fs p).str)) :
    Claimed w (deriveViSidecarPath w.fs p) := by
  cases hrow : row? w.ledger (w.fs.resolve p).str with
  | none =>
    simp only [hrow, Proceeds] at h
    obtain ⟨prior, hprior⟩ := h
    obtain ⟨houtput, key, hkey⟩ := byOutput_some hprior
    exact .inr ⟨_, key, prior, hkey, houtput, rfl⟩
  | some entry => exact .inl ⟨p, entry, hrow, rfl⟩

theorem unclaimed_of_foreignUnclaimed {e : Event} (h : ForeignUnclaimed w) : Unclaimed w e := by
  cases e with
  | write path content readError => trivial
  | delete path => trivial
  | run env path =>
    intro bytes _ hforeign hproceeds
    exact h _ hforeign (claimed_of_proceeds hproceeds)

theorem Claimed.congr {w' : World L} (hledger : w'.ledger = w.ledger)
    (hresolve : w'.fs.resolve = w.fs.resolve) (hd : w.fs.resolve d = w.fs.resolve p)
    (h : Claimed w' d) : Claimed w p := by
  unfold Claimed deriveViSidecarPath at h ⊢
  rw [hledger, hresolve, hd] at h
  exact h

/-- A new file at one path is the only one that can have become foreign. -/
theorem foreign_put {fs : FileSystem} {f : Option File} (h : Foreign (fs.put p f) d) :
    Foreign fs d ∧ fs.resolve d ≠ fs.resolve p ∨
      fs.resolve d = fs.resolve p ∧ ∃ g, f = some g ∧ g.writer = .other := by
  obtain ⟨g, hg, hother⟩ := h
  rw [FileSystem.file?_put] at hg
  split at hg
  next heq => exact .inr ⟨heq, g, hg, hother⟩
  next hne => exact .inl ⟨⟨g, hg, hother⟩, hne⟩

/-- The rows a run adds claim nothing but its own sidecar. -/
theorem Claimed.of_recorded {w' : World L} {job : Job} {path : Path}
    (hpath : job.path = w.fs.resolve path) (hdest : job.dest = deriveViSidecarPath w.fs path)
    (hrecorded : RecordedFor job w.ledger w'.ledger) (hresolve : w'.fs.resolve = w.fs.resolve)
    (h : Claimed w' d) : Claimed w d ∨ w.fs.resolve d = w.fs.resolve job.dest := by
  unfold Claimed deriveViSidecarPath at h
  rw [hresolve] at h
  rcases h with ⟨q, entry, hrow, hq⟩ | ⟨q, key, entry, hrow, houtput, hq⟩
  · rcases hrecorded _ _ hrow with hold | ⟨hkey, _⟩
    · exact .inl (.inl ⟨q, entry, hold, hq⟩)
    · have hsame : w.fs.resolve q = w.fs.resolve path := Path.eq_of_str (hpath ▸ hkey)
      right
      rw [hdest, ← hq]
      unfold deriveViSidecarPath
      rw [hsame]
  · rcases hrecorded _ _ hrow with hold | ⟨_, hnew⟩
    · exact .inl (.inr ⟨q, key, entry, hold, houtput, hq⟩)
    · have hsame : q = job.dest := Path.eq_of_str (hnew _ houtput)
      right
      rw [← hq, hsame]

/-- No foreign file is claimed, and no row is kept under a link. -/
structure Separate (w : World L) : Prop where
  unclaimed : ForeignUnclaimed w
  resolved : ∀ q entry, row? w.ledger q.str = some entry → w.fs.resolve q = q

/-- Once the sidecar is the file at its own entry, a claim on what stays foreign is an old one. -/
theorem Claimed.of_replaced {w' : World L} {job : Job} {path : Path} {content : Bytes}
    (hi : Separate w) (hpath : job.path = w.fs.resolve path)
    (hdest : job.dest = deriveViSidecarPath w.fs path)
    (hrecorded : RecordedFor job w.ledger w'.ledger)
    (hfs : w'.fs = w.fs.replace job.dest ⟨content, .trezarr, none⟩)
    (hforeign : w.fs.entry job.dest ∉ w.fs.trail d) (h : Claimed w' d) : Claimed w d := by
  have hlinks : w'.fs.toLinks = w.fs.settle job.dest := by rw [hfs]; rfl
  unfold Claimed at h
  simp only [deriveViSidecarPath_eq, hlinks] at h
  rcases h with ⟨q, entry, hrow, hq⟩ | ⟨q, key, entry, hrow, houtput, hq⟩
  · obtain ⟨hnot, hq⟩ := Links.not_mem_of_resolve_settle hforeign hq
    rcases hrecorded _ _ hrow with hold | ⟨hkey, _⟩
    · left
      by_cases hmem : w.fs.entry job.dest ∈ w.fs.trail q
      · rw [Links.resolve_settle_of_mem hmem] at hold hq
        have hself := hi.resolved _ _ hold
        refine ⟨w.fs.entry job.dest, entry, hself.symm ▸ hold, ?_⟩
        rw [deriveViSidecarPath_eq, hself, hq]
      · rw [Links.resolve_settle_of_not_mem hmem] at hold hq
        exact ⟨q, entry, hold, hq⟩
    · have hsame : viSidecarOf ((w.fs.settle job.dest).resolve q) = job.dest := by
        rw [Path.eq_of_str hkey, hpath, hdest, deriveViSidecarPath_eq]
      rw [hsame] at hnot
      exact absurd (w.fs.entry_mem job.dest) hnot
  · obtain ⟨hnot, hq⟩ := Links.not_mem_of_resolve_settle hforeign hq
    rcases hrecorded _ _ hrow with hold | ⟨_, hnew⟩
    · exact .inr ⟨q, key, entry, hold, houtput, hq⟩
    · rw [Path.eq_of_str (hnew _ houtput)] at hnot
      exact absurd (w.fs.entry_mem job.dest) hnot

theorem separate_run {env : Env} {path : Path} (hi : Separate w) :
    Separate (w.step (.run env path)) := by
  show Separate (translateFile env path w).world
  rcases translateFile_cases env path w with hsame | ⟨job, hjob, hrecorded, hfs⟩
  · rw [hsame]
    exact hi
  · obtain ⟨hpath, hdest, bytes, hbytes, hhash, hproceeds⟩ := decisionTable_job hjob
    have hours : ¬ Foreign w.fs job.dest := by
      intro hforeign
      have hrows := hproceeds hforeign.exists
      rw [hpath, hdest] at hrows
      exact hi.unclaimed _ (hdest ▸ hforeign) (claimed_of_proceeds hrows)
    have hresolved : ∀ q entry, row? (translateFile env path w).world.ledger q.str = some entry →
        w.fs.resolve q = q := by
      intro q entry hrow
      rcases hrecorded _ _ hrow with hold | ⟨hkey, _⟩
      · exact hi.resolved q entry hold
      · rw [Path.eq_of_str hkey, hpath, Links.resolve_resolve]
    rcases hfs with hfs | ⟨content, hfs⟩
    · refine ⟨fun d hforeign hclaimed => ?_, by rwa [hfs]⟩
      rw [hfs] at hforeign
      rcases hclaimed.of_recorded hpath hdest hrecorded (by rw [hfs]) with hold | heq
      · exact hi.unclaimed d hforeign hold
      · exact hours (hforeign.of_resolve heq)
    · refine ⟨fun d hforeign hclaimed => ?_, fun q entry hrow => ?_⟩
      · obtain ⟨f, hf, hother⟩ := hforeign
        rw [hfs, FileSystem.file?_replace] at hf
        split at hf
        next =>
          cases hf
          cases hother
        next hnot =>
          exact hi.unclaimed d ⟨f, hf, hother⟩
            (hclaimed.of_replaced hi hpath hdest hrecorded hfs hnot)
      · rw [hfs]
        exact Links.resolve_settle_of_eq (hresolved q entry hrow)

theorem separate_step (e : Event) (hi : Separate w) (hleaves : LeavesClaimed w e) :
    Separate (w.step e) := by
  cases e with
  | run env path => exact separate_run hi
  | write path content readError =>
    refine ⟨fun d hforeign hclaimed => ?_, hi.resolved⟩
    rcases foreign_put hforeign with ⟨hold, _⟩ | ⟨heq, _⟩
    · exact hi.unclaimed d hold (hclaimed.congr rfl rfl rfl)
    · exact hleaves (hclaimed.congr rfl rfl heq)
  | delete path =>
    refine ⟨fun d hforeign hclaimed => ?_, hi.resolved⟩
    rcases foreign_put hforeign with ⟨hold, _⟩ | ⟨_, g, hg, _⟩
    · exact hi.unclaimed d hold (hclaimed.congr rfl rfl rfl)
    · cases hg

end Never

/-- The world before the first run: any files, and an empty ledger. -/
def World.initial (L : Type) [LawfulLedger L] (fs : FileSystem)
    (artifacts : Path → Option Artifact) : World L :=
  ⟨fs, LawfulLedger.empty, artifacts⟩

theorem not_claimed_initial {L : Type} [LawfulLedger L] {fs : FileSystem}
    {artifacts : Path → Option Artifact} {d : Path} :
    ¬ Claimed (World.initial L fs artifacts) d := by
  rintro (⟨q, entry, hrow, _⟩ | ⟨q, key, entry, hrow, _⟩)
  · cases (row?_empty _).symm.trans hrow
  · cases (row?_empty _).symm.trans hrow

theorem separate_initial {L : Type} [LawfulLedger L] {fs : FileSystem}
    {artifacts : Path → Option Artifact} : Separate (World.initial L fs artifacts) where
  unclaimed _ _ := not_claimed_initial
  resolved q entry hrow := by cases (row?_empty q.str).symm.trans hrow

/-- Runs that find only unclaimed files in others' hands clobber none of them, and of the runs that
end well only these; so it is when others leave claimed paths alone. -/
theorem never_clobbers (L : Type) [LawfulLedger L] (fs : FileSystem)
    (artifacts : Path → Option Artifact) (events : List Event) :
    (Along World.step Unclaimed (World.initial L fs artifacts) events →
      Along World.step NoClobber (World.initial L fs artifacts) events) ∧
    (∀ (w : World L) (env : Env) (path dest : Path),
      (translateFile env path w).outcome = .ok (.done dest) →
      (NoClobber w (.run env path) ↔ Unclaimed w (.run env path))) ∧
    (Along World.step LeavesClaimed (World.initial L fs artifacts) events →
      Along World.step Unclaimed (World.initial L fs artifacts) events) := by
  refine ⟨?_, fun w env path dest hdone => noClobber_iff_unclaimed hdone, ?_⟩
  · intro h
    exact h.mono fun w e hunclaimed => noClobber_of_unclaimed hunclaimed
  · intro h
    exact along_of_invariant (fun w e => separate_step e)
      (fun w e hi _ => unclaimed_of_foreignUnclaimed hi.unclaimed) separate_initial h

/-- An endpoint that answers every batch of one cue. -/
def endpointUp : Env := { endpointDown with llm := ⟨fun _ _ _ => .ok "[1] Tạm biệt."⟩ }

/-- A run that breaks off, a translation put there by hand, and the run that replaces it. -/
def handmade : List Event :=
  [.run endpointDown ⟨"/tv/E01.en.srt"⟩, .write ⟨"/tv/E01.vi.srt"⟩ [] none,
    .run endpointUp ⟨"/tv/E01.en.srt"⟩]

theorem handmade_clobbered :
    ¬ Along World.step NoClobber
      (World.initial Ledger oneEpisode.fs oneEpisode.artifacts) handmade := by
  rintro ⟨_, _, hrun, _⟩
  have hkept := hrun ⟨"/tv/E01.en.srt"⟩ ⟨⟨[], .other, none⟩, by decide +kernel, rfl⟩
  revert hkept
  decide +kernel

/-- A sidecar that was there first is safe. -/
theorem there_first_kept :
    Along World.step NoClobber (World.initial Ledger oneEpisode.fs oneEpisode.artifacts)
      [.write ⟨"/tv/E01.vi.srt"⟩ [] none, .run endpointUp ⟨"/tv/E01.en.srt"⟩] :=
  have hclobbers := never_clobbers Ledger oneEpisode.fs oneEpisode.artifacts
    [.write ⟨"/tv/E01.vi.srt"⟩ [] none, .run endpointUp ⟨"/tv/E01.en.srt"⟩]
  hclobbers.1 (hclobbers.2.2 ⟨not_claimed_initial, trivial, trivial⟩)

end Trezarr
