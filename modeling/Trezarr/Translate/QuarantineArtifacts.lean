import Trezarr.Translate.NeverClobber
import Trezarr.Translate.Verdict

/-! Whose artifact a quarantined row points to, over whole runs. -/
namespace Trezarr
open Text Runs LawfulLedger LedgerProtocol

/-- A source put in quarantine: where its artifact goes, and what for. -/
structure Quarantine where
  source : Path
  path : Path
  reason : Reason
  failing : List ℕ
  deriving DecidableEq, Repr

/-- The world with the quarantines so far, the latest one first. -/
structure Shelf (L : Type) where
  world : World L
  quarantines : List Quarantine

section Shelf

variable {L : Type} [LawfulLedger L]

/-- What a run puts in quarantine. -/
def quarantineOf (env : Env) (path : Path) (w : World L) : Option Quarantine :=
  match decisionTable env.contentHash w.fs w.ledger path with
  | .ok (some job) => match env.faults.quarantine, judge env w.fs job.path with
    | none, .quarantined reason failing _ =>
      some ⟨job.path, quarantinePath env job, reason, failing⟩
    | _, _ => none
  | _ => none

namespace Shelf

def step (s : Shelf L) (e : Event) : Shelf L where
  world := s.world.step e
  quarantines := match e with
    | .run env path => (quarantineOf env path s.world).toList ++ s.quarantines
    | _ => s.quarantines

def latest (s : Shelf L) (key : Str) : Option Quarantine :=
  s.quarantines.find? fun q => q.source.str = key

/-- Every quarantined row points to an artifact of its own source, with the reason and the cues of
the latest quarantine. -/
def Attributable (s : Shelf L) : Prop :=
  ∀ key entry, row? s.world.ledger key = some entry → entry.status = .quarantined →
    ∃ path artifact q, entry.quarantinePath = some path.str ∧
      s.world.artifacts path = some artifact ∧ artifact.sourcePath.str = key ∧
      s.latest key = some q ∧ artifact.reason = q.reason ∧ artifact.failingCueIndices = q.failing

/-- No other source is in quarantine under the name of the new artifact. -/
def OwnName (s : Shelf L) : Event → Prop
  | .run env path => ∀ q, quarantineOf env path s.world = some q →
    ∀ key entry, row? s.world.ledger key = some entry → entry.status = .quarantined →
      entry.quarantinePath = some q.path.str → key = q.source.str
  | _ => True

end Shelf

variable {w : World L} {env : Env} {path : Path} {q : Quarantine} {s : Shelf L}

/-- A run that quarantines its source sets its row and writes its artifact, and no others. -/
theorem world_of_quarantineOf (h : quarantineOf env path w = some q) :
    ∃ entry : LedgerEntry, entry.sourcePath = q.source.str ∧ entry.status = .quarantined ∧
      entry.quarantinePath = some q.path.str ∧ RowSet entry w (translateFile env path w).world ∧
      ∀ p, (translateFile env path w).world.artifacts p =
        if p = q.path then some ⟨q.reason, q.failing, env.now, q.source⟩ else w.artifacts p := by
  unfold quarantineOf at h
  split at h
  next job hjob =>
    split at h
    next reason failing besides hfault hjudge =>
      cases h
      obtain ⟨w', hstarted, hrun⟩ := start_eq env job w
      have hworld : (translateFile env path w).world =
          (quarantine env job w' reason failing).world := by
        unfold translateFile
        rw [hjob]
        dsimp only
        rw [hrun, sameEnd_readAndTranslate.world, hstarted.fs, hjudge]
        simp only [conclude]
        cases (quarantine env job w' reason failing).outcome <;> cases besides <;> rfl
      rw [quarantine_eq hfault] at hworld
      obtain ⟨hrecorded, _, hartifacts⟩ := recordEntry_recorded
        (w := withArtifact env job w' reason failing) (quarantinedEntry env job)
        (.quarantined (quarantinePath env job) reason)
      refine ⟨quarantinedEntry env job, rfl, rfl, rfl, ?_, fun p => ?_⟩
      · rw [hworld]
        exact hstarted.recorded.trans hrecorded rfl
      · rw [hworld, hartifacts, ← hstarted.artifacts]
        rfl
    next => cases h
  next => cases h

/-- A run that quarantines nothing leaves the artifacts and adds no quarantined row. -/
theorem world_of_no_quarantine (h : quarantineOf env path w = none) :
    (translateFile env path w).world.artifacts = w.artifacts ∧
      ∀ key entry, row? (translateFile env path w).world.ledger key = some entry →
        entry.status = .quarantined → row? w.ledger key = some entry := by
  have hset : ∀ {entry : LedgerEntry}, entry.status ≠ .quarantined →
      RowSet entry w (translateFile env path w).world →
      ∀ key entry', row? (translateFile env path w).world.ledger key = some entry' →
        entry'.status = .quarantined → row? w.ledger key = some entry' := by
    intro entry hstatus hrecorded key entry' hrow hquarantined
    rw [hrecorded key] at hrow
    split at hrow
    next =>
      cases hrow
      exact absurd hquarantined hstatus
    next => exact hrow
  rcases translateFile_aftermath env path w with ⟨err, _, hrun⟩ | ⟨_, hrun⟩ | ⟨job, hjob, hafter⟩
  · rw [hrun]
    exact ⟨rfl, fun _ _ hrow _ => hrow⟩
  · rw [hrun]
    exact ⟨rfl, fun _ _ hrow _ => hrow⟩
  · cases hafter with
    | broken _ _ hrecorded _ hartifacts => exact ⟨hartifacts, hset (fun h => by cases h) hrecorded⟩
    | shelved hshelves =>
      obtain ⟨hfault, reason, failing, besides, hjudge⟩ := hshelves
      simp [quarantineOf, hjob, hfault, hjudge] at h
    | delivered _ _ entry _ _ hstatus _ hrecorded _ _ hartifacts =>
      refine ⟨hartifacts, hset ?_ hrecorded⟩
      rw [hstatus]
      exact nofun

theorem quarantines_run : (s.step (.run env path)).quarantines =
    (quarantineOf env path s.world).toList ++ s.quarantines := rfl

/-- A run keeps the artifacts attributable just when its own has a name of its own. -/
theorem attributable_run_iff (h : s.Attributable) :
    (s.step (.run env path)).Attributable ↔ s.OwnName (.run env path) := by
  cases hquarantine : quarantineOf env path s.world with
  | none =>
    obtain ⟨hartifacts, hrows⟩ := world_of_no_quarantine hquarantine
    have hlatest : (s.step (.run env path)).latest = s.latest := by
      unfold Shelf.latest
      rw [quarantines_run, hquarantine]
      rfl
    refine iff_of_true (fun key entry hrow hstatus => ?_) fun q hq => ?_
    · rw [hlatest]
      show ∃ path' artifact q, _ ∧ (translateFile env path s.world).world.artifacts path' = _ ∧ _
      rw [hartifacts]
      exact h key entry (hrows key entry hrow hstatus) hstatus
    · cases hquarantine.symm.trans hq
  | some q =>
    obtain ⟨entry, hsource, hstatus, hpath, hrecorded, hartifacts⟩ :=
      world_of_quarantineOf hquarantine
    have hlatest : ∀ key, (s.step (.run env path)).latest key =
        if key = q.source.str then some q else s.latest key := by
      intro key
      unfold Shelf.latest
      rw [quarantines_run, hquarantine, Option.toList_some, List.singleton_append]
      by_cases hkey : key = q.source.str
      · rw [if_pos hkey]
        exact List.find?_cons_of_pos (p := fun q : Quarantine => q.source.str = key)
          (decide_eq_true hkey.symm)
      · rw [if_neg hkey, List.find?_cons_of_neg]
        simpa using Ne.symm hkey
    constructor
    · intro hafter q' hq' key entry' hrow' hstatus' hpath'
      cases hquarantine.symm.trans hq'
      by_contra hkey
      have hkept : row? (s.step (.run env path)).world.ledger key = some entry' := by
        refine (hrecorded key).trans ?_
        rw [if_neg (hsource ▸ hkey)]
        exact hrow'
      obtain ⟨path', artifact, _, hpoints, hartifact, howner, _⟩ := hafter key entry' hkept hstatus'
      have hsame : path' = q.path :=
        Path.eq_of_str (Option.some.inj (hpoints.symm.trans hpath'))
      have hnew := hartifacts path'
      rw [if_pos hsame] at hnew
      cases hartifact.symm.trans hnew
      exact hkey howner.symm
    · intro hown key entry' hrow' hstatus'
      have hrow := (hrecorded key).symm.trans hrow'
      rw [hsource] at hrow
      by_cases hkey : key = q.source.str
      · rw [if_pos hkey] at hrow
        cases hrow
        refine ⟨q.path, _, q, hpath, (hartifacts q.path).trans (if_pos rfl), hkey.symm, ?_, rfl,
          rfl⟩
        rw [hlatest, if_pos hkey]
      · rw [if_neg hkey] at hrow
        obtain ⟨path', artifact, q', hpoints, hartifact, howner, hq', hreason⟩ :=
          h key entry' hrow hstatus'
        refine ⟨path', artifact, q', hpoints, ?_, howner, ?_, hreason⟩
        · refine (hartifacts path').trans ?_
          rw [if_neg]
          · exact hartifact
          · rintro rfl
            exact hkey (hown q hquarantine key entry' hrow hstatus' hpoints)
        · rw [hlatest, if_neg hkey]
          exact hq'

theorem attributable_step_iff (h : s.Attributable) (e : Event) :
    (s.step e).Attributable ↔ s.OwnName e := by
  cases e with
  | run env path => exact attributable_run_iff h
  | write path content readError => exact iff_of_true h trivial
  | delete path => exact iff_of_true h trivial

end Shelf

def Shelf.initial (L : Type) [LawfulLedger L] (fs : FileSystem)
    (artifacts : Path → Option Artifact) : Shelf L where
  world := World.initial L fs artifacts
  quarantines := []

/-- Every quarantined row points to its own artifact in every state of a run just when every run in
it that quarantines a source finds no other source in quarantine under the same name. -/
theorem attributable_everywhere_iff (L : Type) [LawfulLedger L] (fs : FileSystem)
    (artifacts : Path → Option Artifact) (events : List Event) :
    (∀ before after, events = before ++ after →
      (run Shelf.step (Shelf.initial L fs artifacts) before).Attributable) ↔
    Along Shelf.step Shelf.OwnName (Shelf.initial L fs artifacts) events := by
  have hinitial : (Shelf.initial L fs artifacts).Attributable := by
    intro key entry hrow
    cases (row?_empty key).symm.trans hrow
  refine Iff.trans ?_ (and_iff_right hinitial)
  exact everywhere_iff (J := fun _ : Shelf L => True) (fun _ _ _ => trivial)
    (fun _ e _ hs => attributable_step_iff hs e) trivial

/-- Two shows with an episode of one name. -/
def twoShows : FileSystem :=
  .linking ⟨"/link"⟩ ⟨"/link"⟩ fun p =>
    if p = ⟨"/a/E.srt"⟩ ∨ p = ⟨"/b/E.srt"⟩ then
      some { content := encodeUtf8 "1\n00:00:01,000 --> 00:00:02,000\nHi.\n", writer := .other }
    else none

/-- An endpoint that answers every cue with nothing. -/
def endpointEmpty : Env := { endpointDown with llm := ⟨fun _ _ _ => .ok "[1] "⟩ }

/-- Both episodes in quarantine, one after the other. -/
def bothQuarantined : Shelf Ledger :=
  run Shelf.step (Shelf.initial Ledger twoShows fun _ => none)
    [.run endpointEmpty ⟨"/a/E.srt"⟩, .run endpointEmpty ⟨"/b/E.srt"⟩]

theorem second_artifact_overwrites : ¬ bothQuarantined.Attributable := by
  have hfirst : (row? bothQuarantined.world.ledger "/a/E.srt").map
      (fun entry => (entry.status, entry.quarantinePath)) =
      some (Status.quarantined, some ("/config/quarantine/E.json" : Str)) := by decide +kernel
  have hsecond : (bothQuarantined.world.artifacts ⟨"/config/quarantine/E.json"⟩).map
      Artifact.sourcePath = some ⟨"/b/E.srt"⟩ := by decide +kernel
  intro hattributable
  obtain ⟨entry, hrow, hentry⟩ := Option.map_eq_some_iff.1 hfirst
  obtain ⟨hstatus, hpath⟩ := Prod.mk.inj hentry
  obtain ⟨path, artifact, _, hpoints, hartifact, howner, _⟩ :=
    hattributable "/a/E.srt" entry hrow hstatus
  have hsame : path = ⟨"/config/quarantine/E.json"⟩ :=
    Path.eq_of_str (Option.some.inj (hpoints.symm.trans hpath))
  rw [← hsame, hartifact] at hsecond
  have hother : artifact.sourcePath = ⟨"/b/E.srt"⟩ := Option.some.inj hsecond
  rw [hother] at howner
  exact absurd howner (by decide)

end Trezarr
