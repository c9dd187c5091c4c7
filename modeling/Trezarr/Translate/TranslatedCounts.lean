import Trezarr.Translate.Ownership
import Trezarr.Translate.PromptFraming
import Trezarr.Translate.Series

/-! What the ledger reports as translated of some series, and what runs have translated of them. -/
namespace Trezarr
open Text Runs LedgerProtocol LawfulLedger

/-- `str` of an id. -/
def idStr (id : ℤ) : Str := (toString id).toList

/-- The label of a done row; an item without an id, or with id zero, gives none. -/
def ledgerSeriesId (arrSeriesId : ℤ) : Option Str :=
  if arrSeriesId = 0 then none else some (idStr arrSeriesId)

/-- The labels of the done rows that are among those asked for. -/
def doneLabels (l : LedgerSqla) (strIds : List Str) : List Str :=
  l.processedFile.filterMap fun row =>
    if row.status = .done then row.seriesId.filter (· ∈ strIds) else none

def translatedCountsForSeries (l : LedgerSqla) (seriesIds : List ℤ) : Dict Str ℕ :=
  if seriesIds = [] then Dict.empty
  else
    let labels := doneLabels l (seriesIds.map idStr)
    Dict.ofList (labels.dedup.map fun label => (label, labels.count label))

/-- The rows that are counted for a label. -/
def doneRows (l : LedgerSqla) (label : Str) : List LedgerEntry :=
  l.processedFile.filter fun row => row.status = .done ∧ row.seriesId = some label

section Counts

variable {l : LedgerSqla} {ids : List ℤ} {id : ℤ}

theorem idStr_injective : Function.Injective idStr := by
  have hdigit : ∀ m n : ℕ, '-' :: natStr m ≠ natStr n := by
    intro m n h
    exact absurd (isDigit_natStr (h ▸ List.mem_cons_self)) (by decide)
  have hneg : ∀ n : ℕ, idStr (Int.negSucc n) = '-' :: natStr (n + 1) := by
    intro n
    exact String.toList_append
  intro a b h
  cases a with
  | ofNat m =>
    cases b with
    | ofNat n => exact congrArg Int.ofNat (natStr_injective h)
    | negSucc n => exact absurd ((hneg n).symm.trans h.symm) (hdigit _ _)
  | negSucc m =>
    cases b with
    | ofNat n => exact absurd ((hneg m).symm.trans h) (hdigit _ _)
    | negSucc n =>
      rw [hneg, hneg] at h
      have hsucc := natStr_injective (List.cons.inj h).2
      exact congrArg Int.negSucc (Nat.succ.inj hsucc)

theorem count_doneLabels {strIds : List Str} {label : Str} (h : label ∈ strIds) :
    (doneLabels l strIds).count label = (doneRows l label).length := by
  unfold doneLabels doneRows
  rw [List.count_filterMap, List.countP_eq_length_filter]
  congr 1
  refine List.filter_congr fun row _ => ?_
  rw [Bool.eq_iff_iff, beq_iff_eq, decide_eq_true_iff]
  by_cases hdone : row.status = .done
  · rw [if_pos hdone, Option.filter_eq_some_iff, and_iff_right hdone, decide_eq_true_iff]
    exact and_iff_left_of_imp fun _ => h
  · simp [hdone]

/-- What is reported for an id is the number of done rows under its label. -/
theorem count_translatedCounts (h : id ∈ ids) :
    ((translatedCountsForSeries l ids).get? (idStr id)).getD 0 =
      (doneRows l (idStr id)).length := by
  have hne : ids ≠ [] := List.ne_nil_of_mem h
  have hcount : (doneLabels l (ids.map idStr)).count (idStr id) =
      (doneRows l (idStr id)).length := count_doneLabels (List.mem_map_of_mem h)
  rw [translatedCountsForSeries, if_neg hne, Dict.get?_ofList_map, ← hcount]
  split
  next => rfl
  next hnone =>
    rw [List.mem_dedup] at hnone
    exact (List.count_eq_zero.mpr hnone).symm

end Counts

/-- What a run is about: an episode of a Sonarr series, or a Radarr movie. The item has the id of
the series or of the movie, and nothing that tells which. -/
inductive Subject (ε : Type)
  | episode (seriesId : ℤ) (key : ε)
  | movie (movieId : ℤ)
  deriving DecidableEq

namespace Subject

variable {ε : Type}

def arrSeriesId : Subject ε → ℤ
  | episode seriesId _ => seriesId
  | movie movieId => movieId

/-- An episode of one of the series. -/
def isAmong (ids : List ℤ) : Subject ε → Bool
  | episode seriesId _ => seriesId ∈ ids
  | movie _ => false

end Subject

/-- A run for an item: whatever it reads, and the disk as it finds it. -/
structure Visit (ε : Type) where
  subject : Subject ε
  path : Path
  env : Env
  fs : FileSystem

def Visit.runEnv {ε : Type} (v : Visit ε) : Env :=
  { v.env with seriesId := ledgerSeriesId v.subject.arrSeriesId }

/-- A run that got past the decision: its source, how it ended and what it wrote over. -/
structure Attempt (ε : Type) where
  subject : Subject ε
  path : Path
  outcome : Except RunError TranslationResult
  replaced : Option Path

/-- The sidecar was written, and the run ended as done. -/
def Attempt.translated {ε : Type} (a : Attempt ε) : Bool :=
  a.replaced.isSome && match a.outcome with
    | .ok (.done _) => true
    | _ => false

/-- The world with the attempts so far, the latest one first. -/
structure Archive (ε : Type) where
  world : World LedgerSqla
  attempts : List (Attempt ε)

namespace Archive

variable {ε : Type}

def initial (fs : FileSystem) (artifacts : Path → Option Artifact) : Archive ε where
  world := World.initial LedgerSqla fs artifacts
  attempts := []

/-- The world as a run finds it. -/
def found (s : Archive ε) (v : Visit ε) : World LedgerSqla := { s.world with fs := v.fs }

def step (s : Archive ε) (v : Visit ε) : Archive ε :=
  let run := translateFile v.runEnv v.path (s.found v)
  { world := run.world
    attempts := match decisionTable v.env.contentHash v.fs s.world.ledger v.path with
      | .ok (some job) => ⟨v.subject, job.path, run.outcome, run.replaced⟩ :: s.attempts
      | _ => s.attempts }

variable [DecidableEq ε]

def latest (s : Archive ε) (subject : Subject ε) : Option (Attempt ε) :=
  s.attempts.find? fun a => a.subject = subject

/-- The episodes of some series of which the latest attempt is a translation. -/
def translatedEpisodes (s : Archive ε) (ids : List ℤ) : List (Subject ε) :=
  (s.attempts.map Attempt.subject).dedup.filter fun subject =>
    subject.isAmong ids && (s.latest subject).any Attempt.translated

/-- Every series has its translated episodes reported. -/
def CountsRight (ids : List ℤ) (s : Archive ε) : Prop :=
  ∀ id ∈ ids, ((translatedCountsForSeries s.world.ledger ids).get? (idStr id)).getD 0 =
    (s.translatedEpisodes [id]).length

/-- The translation is the latest attempt, of an episode of one of the series. -/
structure Standing (ids : List ℤ) (s : Archive ε) (a : Attempt ε) : Prop where
  latest : s.latest a.subject = some a
  translated : a.translated = true
  among : a.subject.isAmong ids = true

/-- An episode of the series has an id and a movie none of theirs, and a standing translation is
from the run's source just when it is of the run's subject. -/
structure OneSource (ids : List ℤ) (s : Archive ε) (v : Visit ε) : Prop where
  named : v.subject.isAmong ids = true → v.subject.arrSeriesId ≠ 0
  noMovie : v.subject.arrSeriesId ∈ ids → v.subject.isAmong ids = true
  source : ∀ job, decisionTable v.env.contentHash v.fs s.world.ledger v.path = .ok (some job) →
    ∀ a, Standing ids s a → (a.path = job.path ↔ a.subject = v.subject)

end Archive

section Runs

variable {L : Type} [LawfulLedger L] {env : Env} {job : Job} {path : Path} {w : World L}

/-- A run that delivers leaves its row with the label of its item. -/
theorem label_of_delivers (h : Delivers env w.fs job) :
    (row? (start env job w).world.ledger job.path.str).map LedgerEntry.seriesId =
      some env.seriesId := by
  obtain ⟨hfault, doc, hjudge, htext⟩ := h
  obtain ⟨w', hstarted, hrun⟩ := start_eq env job w
  obtain ⟨text, htext⟩ := Option.isSome_iff_exists.mp htext
  have hend : SameEnd (start env job w) (finish env job w' doc) := by
    rw [hrun]
    have hread : SameEnd (readAndTranslate env job w')
        (conclude env job w' (judge env w'.fs job.path)) :=
      sameEnd_readAndTranslate
    rw [hstarted.fs, hjudge] at hread
    exact hread
  rw [hend.world]
  unfold finish
  cases hwrite : writeViSidecar env job w' doc with
  | error err =>
    unfold sidecarText at htext
    simp only [writeViSidecar, hfault, htext] at hwrite
    cases hwrite
  | ok written =>
    dsimp only
    rw [(recordEntry_recorded _ _).1, if_pos rfl]
    rfl

/-- Past the decision, the source's row says whether a sidecar was written and for what id. -/
theorem attempt_recorded (hjob : decisionTable env.contentHash w.fs w.ledger path = .ok (some job)) :
    ∃ entry, entry.sourcePath = job.path.str ∧
      RowSet entry w (translateFile env path w).world ∧
      (entry.status = .done → entry.seriesId = env.seriesId ∧
        (translateFile env path w).replaced.isSome = true ∧
        (translateFile env path w).outcome = .ok (.done job.dest)) ∧
      (entry.status ≠ .done → (translateFile env path w).replaced = none) := by
  rcases translateFile_aftermath env path w with
    ⟨err, hother, -⟩ | ⟨hother, -⟩ | ⟨job', hother, hafter⟩
  · cases hjob.symm.trans hother
  · cases hjob.symm.trans hother
  · cases hjob.symm.trans hother
    cases hafter with
    | broken _ _ hrecorded _ _ hreplaced =>
      exact ⟨inProgressEntry job, rfl, hrecorded, nofun, fun _ => hreplaced⟩
    | shelved _ _ entry hsource _ hstatus hrecorded _ _ hreplaced =>
      refine ⟨entry, hsource, hrecorded, ?_, fun _ => hreplaced⟩
      rw [hstatus]
      exact nofun
    | delivered hdelivers _ entry hsource _ hstatus _ hrecorded _ _ _ hreplaced houtcome =>
      refine ⟨entry, hsource, hrecorded, fun _ => ⟨?_, ?_, houtcome⟩, fun h => absurd hstatus h⟩
      · have hlabel := label_of_delivers hdelivers
        have hstart : translateFile env path w = start env job w := by
          unfold translateFile
          rw [hjob]
        rw [← hstart, hrecorded, if_pos hsource.symm] at hlabel
        exact Option.some.inj hlabel
      · rw [hreplaced]
        rfl

end Runs

namespace Archive

variable {ε : Type} [DecidableEq ε] {ids : List ℤ} {s s' : Archive ε} {v : Visit ε} {a b : Attempt ε}
  {id : ℤ}

/-- The rows that are counted are those of the standing translations, one for each. -/
structure Agrees (ids : List ℤ) (s : Archive ε) : Prop where
  row : ∀ a, Standing ids s a → ∃ entry, row? s.world.ledger a.path.str = some entry ∧
    entry.status = .done ∧ entry.seriesId = some (idStr a.subject.arrSeriesId)
  standing : ∀ key entry id, id ∈ ids → row? s.world.ledger key = some entry →
    entry.status = .done → entry.seriesId = some (idStr id) →
    ∃ a, Standing ids s a ∧ a.subject.arrSeriesId = id ∧ a.path.str = key
  same : ∀ a b, Standing ids s a → Standing ids s b → a.path = b.path → a.subject = b.subject

theorem latest_subject {subject : Subject ε} (h : s.latest subject = some a) :
    a.subject = subject := by
  unfold latest at h
  simpa using List.find?_some h

theorem standing_one (h : id ∈ ids) :
    Standing [id] s a ↔ Standing ids s a ∧ a.subject.arrSeriesId = id := by
  have hamong : a.subject.isAmong [id] = true ↔
      a.subject.isAmong ids = true ∧ a.subject.arrSeriesId = id := by
    cases a.subject with
    | episode seriesId key =>
      simp only [Subject.isAmong, Subject.arrSeriesId, List.mem_singleton, decide_eq_true_eq]
      refine ⟨?_, And.right⟩
      rintro rfl
      exact ⟨h, rfl⟩
    | movie movieId => simp [Subject.isAmong]
  constructor
  · rintro ⟨hlatest, htranslated, hone⟩
    exact ⟨⟨hlatest, htranslated, (hamong.mp hone).1⟩, (hamong.mp hone).2⟩
  · rintro ⟨⟨hlatest, htranslated, hids⟩, hid⟩
    exact ⟨hlatest, htranslated, hamong.mpr ⟨hids, hid⟩⟩

theorem mem_translatedEpisodes {subject : Subject ε} :
    subject ∈ s.translatedEpisodes ids ↔ ∃ a, Standing ids s a ∧ a.subject = subject := by
  unfold translatedEpisodes
  rw [List.mem_filter, List.mem_dedup, Bool.and_eq_true, Option.any_eq_true]
  constructor
  · rintro ⟨-, hamong, a, hlatest, htranslated⟩
    obtain rfl := latest_subject hlatest
    exact ⟨a, ⟨hlatest, htranslated, hamong⟩, rfl⟩
  · rintro ⟨a, hstanding, rfl⟩
    have hmem := List.mem_of_find?_eq_some hstanding.latest
    exact ⟨List.mem_map_of_mem hmem, hstanding.among, a, hstanding.latest, hstanding.translated⟩

/-- The source of the latest attempt. -/
def pathOf (s : Archive ε) (subject : Subject ε) : Str :=
  ((s.latest subject).map fun a => a.path.str).getD []

theorem pathOf_standing (h : Standing ids s a) : s.pathOf a.subject = a.path.str := by
  rw [pathOf, h.latest]
  rfl

theorem Agrees.countsRight (h : Agrees ids s) : CountsRight ids s := by
  intro id hid
  rw [count_translatedCounts hid]
  have hrows : ((doneRows s.world.ledger (idStr id)).map LedgerEntry.sourcePath).Nodup :=
    s.world.ledger.unique.sublist (List.filter_sublist.map _)
  have hepisodes : ((s.translatedEpisodes [id]).map s.pathOf).Nodup := by
    refine List.Nodup.map_on ?_ ((List.nodup_dedup _).filter _)
    intro x hx y hy hpath
    obtain ⟨a, ha, rfl⟩ := mem_translatedEpisodes.mp hx
    obtain ⟨b, hb, rfl⟩ := mem_translatedEpisodes.mp hy
    rw [pathOf_standing ha, pathOf_standing hb] at hpath
    exact h.same a b ((standing_one hid).mp ha).1 ((standing_one hid).mp hb).1
      (Path.eq_of_str hpath)
  have hmem : ∀ key, key ∈ (doneRows s.world.ledger (idStr id)).map LedgerEntry.sourcePath ↔
      key ∈ (s.translatedEpisodes [id]).map s.pathOf := by
    intro key
    simp only [List.mem_map]
    constructor
    · rintro ⟨entry, hentry, rfl⟩
      obtain ⟨hrow, hcounted⟩ := List.mem_filter.mp hentry
      obtain ⟨hdone, hlabel⟩ := of_decide_eq_true hcounted
      obtain ⟨a, ha, harr, hpath⟩ := h.standing entry.sourcePath entry id hid
        (LedgerSqla.mem_iff_row?.mp hrow) hdone hlabel
      have hone := (standing_one hid).mpr ⟨ha, harr⟩
      exact ⟨a.subject, mem_translatedEpisodes.mpr ⟨a, hone, rfl⟩,
        (pathOf_standing ha).trans hpath⟩
    · rintro ⟨subject, hsubject, rfl⟩
      obtain ⟨a, ha, rfl⟩ := mem_translatedEpisodes.mp hsubject
      obtain ⟨hids, harr⟩ := (standing_one hid).mp ha
      obtain ⟨entry, hrow, hdone, hlabel⟩ := h.row a hids
      rw [harr] at hlabel
      refine ⟨entry, List.mem_filter.mpr ⟨?_, decide_eq_true ⟨hdone, hlabel⟩⟩, ?_⟩
      · have hsource := LedgerSqla.row?_sourcePath hrow
        exact LedgerSqla.mem_iff_row?.mpr (hsource.symm ▸ hrow)
      · rw [pathOf_standing ha]
        exact LedgerSqla.row?_sourcePath hrow
  have hperm := (List.perm_ext_iff_of_nodup hrows hepisodes).mpr hmem
  have hlength := hperm.length_eq
  rwa [List.length_map, List.length_map] at hlength

/-- A run that stops at the decision leaves ledger and attempts alone. -/
theorem Agrees.of_undecided (h : Agrees ids s) (hledger : s'.world.ledger = s.world.ledger)
    (hattempts : s'.attempts = s.attempts) : Agrees ids s' := by
  have hlatest : ∀ subject, s'.latest subject = s.latest subject := by
    intro subject
    rw [latest, latest, hattempts]
  have hstanding : ∀ a, Standing ids s' a ↔ Standing ids s a := by
    intro a
    constructor
    · exact fun ha => ⟨(hlatest _).symm.trans ha.latest, ha.translated, ha.among⟩
    · exact fun ha => ⟨(hlatest _).trans ha.latest, ha.translated, ha.among⟩
  refine ⟨fun a ha => ?_, fun key entry id hid hrow hdone hlabel => ?_, fun a b ha hb => ?_⟩
  · rw [hledger]
    exact h.row a ((hstanding a).mp ha)
  · rw [hledger] at hrow
    obtain ⟨a, ha, hrest⟩ := h.standing key entry id hid hrow hdone hlabel
    exact ⟨a, (hstanding a).mpr ha, hrest⟩
  · exact h.same a b ((hstanding a).mp ha) ((hstanding b).mp hb)

def attempt (s : Archive ε) (v : Visit ε) (job : Job) : Attempt ε :=
  let run := translateFile v.runEnv v.path (s.found v)
  ⟨v.subject, job.path, run.outcome, run.replaced⟩

section Decided

variable {job : Job}
  (hjob : decisionTable v.env.contentHash v.fs s.world.ledger v.path = .ok (some job))

include hjob

omit [DecidableEq ε] in
theorem attempts_step : (s.step v).attempts = s.attempt v job :: s.attempts := by
  simp only [step, hjob]
  rfl

theorem latest_step (subject : Subject ε) : (s.step v).latest subject =
    if v.subject = subject then some (s.attempt v job) else s.latest subject := by
  rw [latest, attempts_step hjob, List.find?_cons]
  by_cases hsubject : v.subject = subject
  · simp [attempt, hsubject]
  · simp [attempt, hsubject, latest]

theorem standing_step : Standing ids (s.step v) a ↔
    (a = s.attempt v job ∧ a.translated = true ∧ a.subject.isAmong ids = true) ∨
      (v.subject ≠ a.subject ∧ Standing ids s a) := by
  constructor
  · rintro ⟨hlatest, htranslated, hamong⟩
    rw [latest_step hjob] at hlatest
    split at hlatest
    next => exact .inl ⟨(Option.some.inj hlatest).symm, htranslated, hamong⟩
    next hother => exact .inr ⟨hother, hlatest, htranslated, hamong⟩
  · rintro (⟨rfl, htranslated, hamong⟩ | ⟨hother, hlatest, htranslated, hamong⟩)
    · exact ⟨(latest_step hjob _).trans (if_pos rfl), htranslated, hamong⟩
    · exact ⟨(latest_step hjob _).trans ((if_neg hother).trans hlatest), htranslated, hamong⟩

omit [DecidableEq ε] in
/-- The source's row is done just when the attempt is a translation, and no other row changes. -/
theorem rows_step : ∃ entry : LedgerEntry,
    (∀ key, row? (s.step v).world.ledger key =
      if key = job.path.str then some entry else row? s.world.ledger key) ∧
    ((s.attempt v job).translated = true ↔ entry.status = .done) ∧
    (entry.status = .done → entry.seriesId = ledgerSeriesId v.subject.arrSeriesId) := by
  obtain ⟨entry, hsource, hrecorded, hdone, hnot⟩ := @attempt_recorded LedgerSqla _ v.runEnv job
    v.path (s.found v) hjob
  refine ⟨entry, fun key => ?_, ?_, fun hstatus => (hdone hstatus).1⟩
  · rw [← hsource]
    exact hrecorded key
  · by_cases hstatus : entry.status = .done
    · obtain ⟨-, hreplaced, houtcome⟩ := hdone hstatus
      simp [Attempt.translated, attempt, hreplaced, houtcome, hstatus]
    · simp [Attempt.translated, attempt, hnot hstatus, hstatus]

theorem Agrees.attempted (h : Agrees ids s) (hguard : OneSource ids s v) :
    Agrees ids (s.step v) := by
  obtain ⟨entry, hrows, htranslated, hlabel⟩ := rows_step (s := s) (v := v) hjob
  have hapart : ∀ a, Standing ids s a → v.subject ≠ a.subject → a.path.str ≠ job.path.str :=
    fun a ha hother hpath =>
      hother ((hguard.source job hjob a ha).mp (Path.eq_of_str hpath)).symm
  refine ⟨fun a ha => ?_, fun key entry' id hid hrow hdone hlabel' => ?_, fun a b ha hb hpath => ?_⟩
  · rcases (standing_step hjob).mp ha with ⟨rfl, hdone, hamong⟩ | ⟨hother, ha⟩
    · have hstatus := htranslated.mp hdone
      refine ⟨entry, (hrows _).trans (if_pos rfl), hstatus, ?_⟩
      rw [hlabel hstatus, ledgerSeriesId, if_neg (hguard.named hamong)]
      rfl
    · rw [hrows, if_neg (hapart a ha hother)]
      exact h.row a ha
  · rw [hrows] at hrow
    split at hrow
    next hkey =>
      obtain rfl := Option.some.inj hrow
      rw [hlabel hdone, ledgerSeriesId] at hlabel'
      split at hlabel'
      next => cases hlabel'
      next =>
        have harr := idStr_injective (Option.some.inj hlabel')
        have hamong := hguard.noMovie (harr.symm ▸ hid)
        exact ⟨s.attempt v job,
          (standing_step hjob).mpr (.inl ⟨rfl, htranslated.mpr hdone, hamong⟩), harr, hkey.symm⟩
    next hkey =>
      obtain ⟨a, ha, harr, hpath⟩ := h.standing key entry' id hid hrow hdone hlabel'
      have hother : v.subject ≠ a.subject := fun heq =>
        hkey (hpath ▸ congrArg Path.str ((hguard.source job hjob a ha).mpr heq.symm))
      exact ⟨a, (standing_step hjob).mpr (.inr ⟨hother, ha⟩), harr, hpath⟩
  · rcases (standing_step hjob).mp ha with ⟨rfl, -⟩ | ⟨hothera, ha⟩
    · rcases (standing_step hjob).mp hb with ⟨rfl, -⟩ | ⟨hotherb, hb⟩
      · rfl
      · exact absurd (congrArg Path.str hpath.symm) (hapart b hb hotherb)
    · rcases (standing_step hjob).mp hb with ⟨rfl, -⟩ | ⟨-, hb⟩
      · exact absurd (congrArg Path.str hpath) (hapart a ha hothera)
      · exact h.same a b ha hb hpath

end Decided

theorem Agrees.step (h : Agrees ids s) (hguard : OneSource ids s v) : Agrees ids (s.step v) := by
  rcases translateFile_aftermath v.runEnv v.path (s.found v) with
    ⟨err, hjob, hrun⟩ | ⟨hjob, hrun⟩ | ⟨job, hjob, -⟩
  · have hjob' : decisionTable v.env.contentHash v.fs s.world.ledger v.path = .error err := hjob
    refine h.of_undecided (congrArg (fun run => run.world.ledger) hrun) ?_
    simp only [Archive.step, hjob']
  · have hjob' : decisionTable v.env.contentHash v.fs s.world.ledger v.path = .ok none := hjob
    refine h.of_undecided (congrArg (fun run => run.world.ledger) hrun) ?_
    simp only [Archive.step, hjob']
  · exact h.attempted hjob hguard

theorem agrees_initial (ids : List ℤ) (fs : FileSystem) (artifacts : Path → Option Artifact) :
    Agrees ids (initial fs artifacts : Archive ε) := by
  refine ⟨fun a ha => ?_, fun key entry id _ hrow => ?_, fun a b ha => ?_⟩
  · cases ha.latest
  · cases (row?_empty key).symm.trans hrow
  · cases ha.latest

end Archive

/-- Where every episode has one source and its own, and no movie has the id of a series, each series
has its translated episodes reported in every state of a run. -/
theorem translated_counts {ε : Type} [DecidableEq ε] (ids : List ℤ) (fs : FileSystem)
    (artifacts : Path → Option Artifact) (visits : List (Visit ε))
    (h : Along Archive.step (Archive.OneSource ids) (.initial fs artifacts) visits) :
    ∀ before after, visits = before ++ after →
      (run Archive.step (.initial fs artifacts) before).CountsRight ids := by
  rintro before after rfl
  exact (invariant_run (fun s v hs hv => Archive.Agrees.step hs hv)
    (Archive.agrees_initial ids fs artifacts) (along_append.mp h).1).countsRight

/-- A source in two languages, of an episode or of a movie. -/
def bilingual : FileSystem := .linking ⟨"/link"⟩ ⟨"/link"⟩ fun p =>
  if p = ⟨"/tv/E01.en.srt"⟩ ∨ p = ⟨"/tv/E01.ko.srt"⟩ then
    some { content := encodeUtf8 "1\n00:00:01,000 --> 00:00:02,000\nHi.\n", writer := .other }
  else none

def visit (subject : Subject ℕ) (path : Str) (fs : FileSystem) : Visit ℕ :=
  ⟨subject, ⟨path⟩, answering "[1] Tạm biệt.", fs⟩

def blank : Archive ℕ := .initial bilingual fun _ => none

theorem one_episode_counted :
    (run Archive.step blank [visit (.episode 7 1) "/tv/E01.en.srt" bilingual]).CountsRight [7] := by
  have halong : Along Archive.step (Archive.OneSource [7]) blank
      [visit (.episode 7 1) "/tv/E01.en.srt" bilingual] := by
    refine ⟨⟨by decide, by decide, ?_⟩, trivial⟩
    intro job _ a ha
    cases ha.latest
  exact translated_counts [7] bilingual (fun _ => none) _ halong _ [] (List.append_nil _).symm

/-- The second source of an episode is one more, and so is a movie with the id of the series. -/
theorem counted_twice :
    let upgraded := blank.step (visit (.episode 7 1) "/tv/E01.en.srt" bilingual)
    ¬ (run Archive.step upgraded [visit (.episode 7 1) "/tv/E01.ko.srt"
        upgraded.world.fs]).CountsRight [7] ∧
      ¬ (run Archive.step blank [visit (.movie 7) "/tv/E01.en.srt" bilingual]).CountsRight [7] := by
  refine ⟨fun h => ?_, fun h => ?_⟩
  · have hcount := h 7 List.mem_cons_self
    revert hcount
    decide +kernel
  · have hcount := h 7 List.mem_cons_self
    revert hcount
    decide +kernel

end Trezarr
