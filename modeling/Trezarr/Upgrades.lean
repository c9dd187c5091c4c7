import Trezarr.Convergence
import Trezarr.Discover.Best
import Trezarr.Web.Snapshot

/-! Whether a translation from one source is only ever replaced by one from a better source. -/
namespace Trezarr
open Text Runs LedgerProtocol LawfulLedger

/-- A library with its directories, and what each sidecar was last written from. -/
structure Library (L : Type) where
  world : World L
  directories : Directories
  origin : Path → Option Path

/-- A job comes from a poll of the library with the item itself, or from the queue with what its
row keeps of the item; a scan changes nothing. The override is the one of the item's series. -/
inductive LibraryEvent
  | direct (service : Service) (override : List Str) (item : EligibleItem)
  | queued (service : Service) (override : List Str) (item : EligibleItem)
  | add (path : Path) (content : Bytes) (readError : Option Str)

/-- What the queue hands over for an item. -/
def EligibleItem.stub (item : EligibleItem) : EligibleItem := (Web.queuedRow 0 item).eligibleStub

/-- The language in the name of a subtitle. -/
def sourceLang (p : Path) : Option Str := (langSidecarMatch p.name).map fun (_, lang) => lower lang

namespace Library

variable {L : Type} [LedgerProtocol L] (s : Library L) (service : Service)

def serviceHere : Service := { service with directories := s.directories }

def source (item : EligibleItem) : Path := (s.serviceHere service).source item s.world.fs

def process (item : EligibleItem) : Library L :=
  let run := (processOneItem (s.serviceHere service) item s.world).run
  { world := run.world
    directories := (s.serviceHere service).directoriesAfter run
    origin := match run.replaced with
      | none => s.origin
      | some entry => fun p => if p = entry then some (s.source service item) else s.origin p }

def step : LibraryEvent → Library L
  | .direct service _ item => s.process service item
  | .queued service _ item => s.process service item.stub
  | .add path content readError =>
    { s with
      world := { s.world with fs := s.world.fs.put path (some ⟨content, .other, readError⟩) }
      directories := s.directories.withEntry s.world.fs.toLinks (s.world.fs.entry path) }

/-- A sidecar from a source in one language is replaced by one from another only if that is
ranked before it. -/
def OnlyUpgrades (override : List Str) (item handed : EligibleItem) : Prop :=
  ∀ entry old oldLang newLang,
    (processOneItem (s.serviceHere service) handed s.world).run.replaced = some entry →
    s.origin entry = some old → sourceLang old = some oldLang →
    sourceLang (s.source service handed) = some newLang → newLang ≠ oldLang →
    sourceRank override (normalizeOriginalLanguage item.mediaItem.originalLanguage) newLang <
      sourceRank override (normalizeOriginalLanguage item.mediaItem.originalLanguage) oldLang

def Upgrades : LibraryEvent → Prop
  | .direct service override item => s.OnlyUpgrades service override item item
  | .queued service override item => s.OnlyUpgrades service override item item.stub
  | .add .. => True

def disk : Disk := { s.world.fs, s.directories with }

/-- A job that comes to write takes a subtitle of the item's media file; to replace one from
another language it takes the one that is preferred, by the override of the series, and the
earlier one belonged to the same media file. -/
def TakesPreferred (override : List Str) (item handed : EligibleItem) : Prop :=
  ∀ job, decisionTable service.contentHash s.world.fs s.world.ledger (s.source service handed) =
      .ok (some job) →
    Delivers service.toEnv s.world.fs job →
    ∃ mediaPath, item.mediaItem.localPath = some mediaPath ∧
      (∃ lang, SidecarIn s.disk mediaPath lang (s.source service handed)) ∧
      ∀ old, s.origin (s.world.fs.entry job.dest) = some old →
        sourceLang old ≠ sourceLang (s.source service handed) →
        (perSeriesOverride service.settings service.series).getD [] = override ∧
        FindsSource s.disk service.settings service.series service.fetchEpisodes item
          (s.source service handed) ∧
        NamedFor mediaPath old ∧ (candidateLang mediaPath old).isSome

def UsesPreferred : LibraryEvent → Prop
  | .direct service override item => s.TakesPreferred service override item item
  | .queued service override item => s.TakesPreferred service override item item.stub
  | .add .. => True

/-- What the sidecars were written from is still there. -/
def OriginsListed : Prop :=
  ∀ entry old, s.origin entry = some old →
    ∃ names, s.directories.listing old.parent = .ok names ∧ old.name ∈ names

end Library

section Steps

variable {L : Type} [LawfulLedger L] {s : Library L} {service : Service} {override : List Str}
  {item handed : EligibleItem} {e : LibraryEvent}

/-- A sidecar is replaced by a job that delivers it. -/
theorem replaced_cases {entry : Path}
    (h : (processOneItem service item s.world).run.replaced = some entry) :
    ∃ job, decisionTable service.contentHash s.world.fs s.world.ledger
        (service.source item s.world.fs) = .ok (some job) ∧
      Delivers service.toEnv s.world.fs job ∧ entry = s.world.fs.entry job.dest := by
  rcases translateFile_aftermath service.toEnv (service.source item s.world.fs) s.world with
    ⟨err, hjob, hrun⟩ | ⟨hjob, hrun⟩ | ⟨job, hjob, hafter⟩
  · cases h.symm.trans (congrArg Run.replaced hrun)
  · cases h.symm.trans (congrArg Run.replaced hrun)
  · cases hafter with
    | broken _ _ _ _ _ hreplaced => cases h.symm.trans hreplaced
    | shelved _ _ _ _ _ _ _ _ _ hreplaced => cases h.symm.trans hreplaced
    | delivered hdelivers _ _ _ _ _ _ _ _ _ _ hreplaced =>
      exact ⟨job, hjob, hdelivers, Option.some.inj (h.symm.trans hreplaced)⟩

theorem originsListed_process (hlisted : s.OriginsListed)
    (htakes : s.TakesPreferred service override item handed) :
    (s.process service handed).OriginsListed := by
  intro entry old hold
  unfold Library.process at hold ⊢
  unfold Service.directoriesAfter
  dsimp only at hold ⊢
  cases hreplaced : (processOneItem (s.serviceHere service) handed s.world).run.replaced with
  | none =>
    rw [hreplaced] at hold
    exact hlisted entry old hold
  | some replaced =>
    rw [hreplaced] at hold
    apply Directories.listing_withEntry
    dsimp only at hold
    split at hold
    next =>
      cases hold
      obtain ⟨job, hjob, hdelivers, _⟩ := replaced_cases hreplaced
      obtain ⟨mediaPath, _, ⟨lang, candidates, hglob, hmem, _⟩, _⟩ := htakes job hjob hdelivers
      obtain ⟨⟨hparent, _⟩, hnames⟩ := (mem_candidates_iff hglob).mp hmem
      rw [hparent]
      exact hnames
    next => exact hlisted entry old hold

/-- The language of a subtitle of the media file is the one in its name. -/
theorem sourceLang_of_candidateLang {mediaPath p : Path} {lang : Str}
    (h : candidateLang mediaPath p = some lang) : sourceLang p = some lang := by
  obtain ⟨code, hmatch, rfl⟩ := candidateLang_some h
  unfold sourceLang
  rw [hmatch]
  rfl

theorem onlyUpgrades_of_takesPreferred (hlisted : s.OriginsListed)
    (htakes : s.TakesPreferred service override item handed) :
    s.OnlyUpgrades service override item handed := by
  intro entry old oldLang newLang hreplaced hold holdLang hnewLang hne
  obtain ⟨job, hjob, hdelivers, rfl⟩ := replaced_cases hreplaced
  obtain ⟨mediaPath, hmedia, _, hreplaces⟩ := htakes job hjob hdelivers
  have hother : sourceLang old ≠ sourceLang (s.source service handed) := by
    rw [holdLang, hnewLang]
    exact fun h => hne (Option.some.inj h).symm
  obtain ⟨hoverride, hfinds, hnamed, hcandidate⟩ := hreplaces old hold hother
  -- the earlier source is one of the languages the item has now
  obtain ⟨lang, hlang⟩ := Option.isSome_iff_exists.mp hcandidate
  have hsame : lang = oldLang :=
    Option.some.inj ((sourceLang_of_candidateLang hlang).symm.trans holdLang)
  subst hsame
  obtain ⟨names, hnames, hmem⟩ := hlisted _ old hold
  rw [hnamed.1] at hnames
  obtain ⟨candidates, hglob⟩ : ∃ candidates, globSourceSidecars s.disk mediaPath = .ok candidates :=
    globSourceSidecars_ok hnames
  have hold' : SidecarIn s.disk mediaPath lang old :=
    ⟨candidates, hglob, (mem_candidates_iff hglob).mpr ⟨hnamed, names, hnames, hmem⟩, hlang⟩
  -- and the new one is what is preferred among them
  obtain ⟨chosen, ⟨available, havailable, hpreferred⟩, _, _, _, hchosen⟩ :=
    hfinds.sidecarIn hmedia
  have hnew : chosen = newLang :=
    Option.some.inj ((sourceLang_of_candidateLang hchosen).symm.trans hnewLang)
  subst hnew
  rw [hoverride] at hpreferred
  have hle := hpreferred.le (lower_of_available havailable)
    (mem_available_of_own hmedia havailable (mem_ownLangs_iff.mpr ⟨old, hold'⟩))
  exact lt_of_le_of_ne hle fun heq => hne (sourceRank_injective heq)

theorem originsListed_step (hlisted : s.OriginsListed) (he : s.UsesPreferred e) :
    (s.step e).OriginsListed := by
  cases e with
  | direct service override item => exact originsListed_process hlisted he
  | queued service override item => exact originsListed_process hlisted he
  | add path content readError =>
    exact fun entry old hold => Directories.listing_withEntry (hlisted entry old hold)

theorem upgrades_step (hlisted : s.OriginsListed) (he : s.UsesPreferred e) : s.Upgrades e := by
  cases e with
  | direct service override item => exact onlyUpgrades_of_takesPreferred hlisted he
  | queued service override item => exact onlyUpgrades_of_takesPreferred hlisted he
  | add path content readError => trivial

end Steps

/-- In a run whose jobs take the preferred source, a translation is only replaced by one from a
source ranked before its own. -/
theorem upgrades_only {L : Type} [LawfulLedger L] (s : Library L) (events : List LibraryEvent)
    (hstart : ∀ entry, s.origin entry = none)
    (h : Along Library.step Library.UsesPreferred s events) :
    Along Library.step Library.Upgrades s events := by
  refine along_of_invariant (fun _ _ => originsListed_step) (fun _ _ => upgrades_step) ?_ h
  intro entry old hold
  cases (hstart entry).symm.trans hold

/-- A library without a run yet. -/
def Library.fresh (names : List Str) (h : ∀ name ∈ names, '/' ∉ name) : Library Ledger where
  world := twoSources
  directories := tvDirectory names h
  origin _ := none

def answeringService : Service :=
  { answering "[1] Tạm biệt." with
    directories := tvDirectory [] nofun
    mediaRoots := [] }

/-- A Korean source that is added later, and a second poll. -/
def koreanAdded : List LibraryEvent :=
  [.direct answeringService [] englishEpisode,
    .add ⟨"/tv/E01.ko.srt"⟩ (encodeUtf8 "1\n00:00:01,000 --> 00:00:02,000\nHi.\n") none,
    .direct answeringService [] englishEpisode]

theorem korean_upgrade : Along Library.step Library.Upgrades
    (.fresh ["E01.en.srt"] (by decide)) koreanAdded := by
  refine upgrades_only _ koreanAdded (fun _ => rfl) ⟨?_, trivial, ?_, trivial⟩
  · intro job _ _
    refine ⟨⟨"/tv/E01.mkv"⟩, rfl, ⟨"en", [⟨"/tv/E01.en.srt"⟩], ?_⟩, fun old hold => by cases hold⟩
    decide
  · intro job hjob _
    have hdest := (decisionTable_job hjob).2.1
    generalize hs : Library.step (L := Ledger) _ _ = s at hjob hdest ⊢
    have hstate : s.source answeringService englishEpisode = ⟨"/tv/E01.ko.srt"⟩ ∧
        s.origin (s.world.fs.entry (deriveViSidecarPath s.world.fs ⟨"/tv/E01.ko.srt"⟩)) =
          some ⟨"/tv/E01.en.srt"⟩ ∧
        globSourceSidecars s.disk ⟨"/tv/E01.mkv"⟩ =
          .ok [⟨"/tv/E01.en.srt"⟩, ⟨"/tv/E01.ko.srt"⟩, ⟨"/tv/E01.vi.srt"⟩] ∧
        bestLang s.disk answeringService.settings answeringService.series
          answeringService.fetchEpisodes englishEpisode = .ok (some ['k', 'o']) ∧
        findSourceSub s.disk ⟨"/tv/E01.mkv"⟩ [['k', 'o']] =
          some (⟨"/tv/E01.ko.srt"⟩, ['k', 'o']) := by
      rw [← hs]
      decide +kernel
    obtain ⟨hsource, horigin, hglob, hbest, hfound⟩ := hstate
    rw [hsource] at hdest ⊢
    rw [hdest, horigin]
    refine ⟨⟨"/tv/E01.mkv"⟩, rfl, ⟨['k', 'o'], _, hglob, by decide⟩, ?_⟩
    rintro old ⟨⟩ _
    refine ⟨rfl, ⟨['k', 'o'], ⟨"/tv/E01.mkv"⟩, ['k', 'o'], bestLang_iff.mp hbest, rfl, hfound⟩, ?_⟩
    decide

/-- A poll, and the job that a scan then queues for the same item. -/
def polledTwice : List LibraryEvent :=
  [.direct answeringService [] englishEpisode, .queued answeringService [] englishEpisode]

/-- The queue takes the English source that the scan reports, over what came from the Korean. -/
theorem english_over_korean :
    (scanForEligibleItems answeringService.contentHash
      ((Library.fresh ["E01.en.srt", "E01.ko.srt"] (by decide)).step
        (.direct answeringService [] englishEpisode)).disk
      ((Library.fresh ["E01.en.srt", "E01.ko.srt"] (by decide)).step
        (.direct answeringService [] englishEpisode)).world.ledger
      answeringService.settings.sourceLangPriority [englishEpisode.mediaItem]).map Prod.fst =
        .ok [englishEpisode] ∧
      ¬ Along Library.step Library.Upgrades
        (.fresh ["E01.en.srt", "E01.ko.srt"] (by decide)) polledTwice := by
  generalize hs : (Library.fresh ["E01.en.srt", "E01.ko.srt"] (by decide)).step
    (.direct answeringService [] englishEpisode) = s
  have hstate : (scanForEligibleItems answeringService.contentHash s.disk s.world.ledger
        answeringService.settings.sourceLangPriority [englishEpisode.mediaItem]).map Prod.fst =
          .ok [englishEpisode] ∧
      (processOneItem (s.serviceHere answeringService) englishEpisode.stub s.world).run.replaced =
        some ⟨"/tv/E01.vi.srt"⟩ ∧
      s.origin ⟨"/tv/E01.vi.srt"⟩ = some ⟨"/tv/E01.ko.srt"⟩ ∧
      sourceLang (s.source answeringService englishEpisode.stub) = some ['e', 'n'] := by
    rw [← hs]
    decide +kernel
  obtain ⟨hscan, hreplaced, horigin, hsource⟩ := hstate
  refine ⟨hscan, fun h => ?_⟩
  have hsecond : s.OnlyUpgrades answeringService [] englishEpisode englishEpisode.stub :=
    hs ▸ h.2.1
  have hworse := hsecond _ _ ['k', 'o'] _ hreplaced horigin (by decide) hsource (by decide)
  revert hworse
  decide

end Trezarr
