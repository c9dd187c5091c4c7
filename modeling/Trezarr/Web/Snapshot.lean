import Trezarr.Discover.Select
import Trezarr.Translate.ItemSeries
import Trezarr.Web.Jobs

/-! An item that is translated at once, and one that is queued first and rebuilt from its job. -/
namespace Trezarr.Web
open Text

/-- What a translation is called with for an item, and what it derives of the item's series. -/
structure Handover where
  source : Path
  model : Str
  series : Option (Str × ℤ)
  episodeKey : Option Str
  metadata : Option ArrMetadata
  deriving DecidableEq, Repr

/-- The fields that are kept with the job; a discovered item has no `arr_metadata`. -/
def snapshot (mediaItem : MediaItem) : MediaItemSnapshot where
  arrKind := mediaItem.arrKind
  seriesId := mediaItem.seriesId
  tvdbId := mediaItem.tvdbId
  tmdbId := mediaItem.tmdbId
  title := mediaItem.title
  seasonNumber := mediaItem.seasonNumber
  sourceType := some mediaItem.sourceType

/-- A field that was not kept reads as missing. -/
def MediaItemSnapshot.mediaItem (kept : MediaItemSnapshot) : MediaItem where
  localPath := none
  arrKind := kept.arrKind
  seriesId := kept.seriesId
  title := kept.title
  sourceType := kept.sourceType.getD "episode"
  seasonNumber := kept.seasonNumber
  tvdbId := kept.tvdbId
  tmdbId := kept.tmdbId

/-- The job a poll queues an item as. -/
def queuedRow (jobId : ℕ) (item : EligibleItem) : Job where
  id := jobId
  sourcePath := item.sourceSubPath.str
  seriesId := item.mediaItem.seriesId
  trigger := .poll
  mediaItemJson := (snapshot item.mediaItem).json

/-- The item an execution rebuilds from its job; nothing reads its language. -/
def Job.eligibleStub (job : Job) : EligibleItem where
  mediaItem := (job.mediaItemJson.map MediaItemSnapshot.mediaItem).getD { localPath := none }
  sourceSubPath := ⟨job.sourcePath⟩
  sourceLang := []

section Handover

variable (disk : Disk) (settings : TrezarrSettings) (seriesByArrId : Str → ℤ → Option SeriesDTO)
  (fetchEpisodes : ℤ → Option (List InventoryEntry)) (item : EligibleItem)

/-- The series of an item that names one. -/
def seriesDto (mediaItem : MediaItem) : Option SeriesDTO :=
  match mediaItem.arrKind, mediaItem.seriesId with
  | some arrKind, some seriesId => if arrKind ≠ [] then seriesByArrId arrKind seriesId else none
  | _, _ => none

/-- Without a session factory the translation is mechanical and derives nothing. -/
def handover (sessionFactory : Bool) : Handover :=
  let series := if sessionFactory then seriesDto seriesByArrId item.mediaItem else none
  let source := sourceSubPath disk settings series fetchEpisodes item
  let derived {α : Type} (a : α) : Option α := if sessionFactory then some a else none
  { source
    model := (resolveEffectiveSettings series settings).2.2
    series := derived (seriesIdentity item.mediaItem)
    episodeKey := derived (deriveEpisodeKey item.mediaItem (disk.resolve source))
    metadata := derived (arrMetadata item.mediaItem) }

/-- An execution has a session factory for a job with a snapshot. -/
def Job.handover (job : Job) : Handover :=
  Web.handover disk settings seriesByArrId fetchEpisodes job.eligibleStub job.mediaItemJson.isSome

/-- The job keeps all there is of the item, and the scan chose the file that is preferred. -/
structure KeptByJob : Prop where
  source : ∀ path, FindsSource disk settings (seriesDto seriesByArrId item.mediaItem) fetchEpisodes
    item path → path = item.sourceSubPath
  genres : item.mediaItem.genres = none
  overview : item.mediaItem.overview = none
  year : item.mediaItem.year = none
  network : item.mediaItem.network = none
  runtime : item.mediaItem.runtime = none

end Handover

variable {disk : Disk} {settings : TrezarrSettings} {seriesByArrId : Str → ℤ → Option SeriesDTO}
  {fetchEpisodes : ℤ → Option (List InventoryEntry)} {item : EligibleItem}
  {series : Option SeriesDTO}

theorem snapshot_json (mediaItem : MediaItem) :
    (snapshot mediaItem).json = some (snapshot mediaItem) :=
  if_neg fun h => by simpa [snapshot] using congrArg MediaItemSnapshot.sourceType h

/-- A queued item is translated from the file the scan chose. -/
theorem sourceSubPath_of_no_media (h : item.mediaItem.localPath = none) :
    sourceSubPath disk settings series fetchEpisodes item = item.sourceSubPath := by
  unfold sourceSubPath
  rw [h]
  split <;> rfl

theorem sourceSubPath_eq_scan_iff :
    sourceSubPath disk settings series fetchEpisodes item = item.sourceSubPath ↔
      ∀ path, FindsSource disk settings series fetchEpisodes item path →
        path = item.sourceSubPath := by
  constructor
  · exact fun h path hfinds => hfinds.eq.symm.trans h
  · intro h
    rcases @sourceSubPath_cases disk settings series fetchEpisodes item with hfinds | ⟨-, hscan⟩
    · exact h _ hfinds
    · exact hscan

/-- What the job hands over, in terms of the item it was queued for. -/
theorem handover_queuedRow (jobId : ℕ) :
    (queuedRow jobId item).handover disk settings seriesByArrId fetchEpisodes =
      { source := item.sourceSubPath
        model := (resolveEffectiveSettings (seriesDto seriesByArrId item.mediaItem) settings).2.2
        series := some (seriesIdentity item.mediaItem)
        episodeKey := some (deriveEpisodeKey item.mediaItem (disk.resolve item.sourceSubPath))
        metadata := some { arrMetadata item.mediaItem with
          genres := none, overview := none, year := none, network := none, runtime := none } } := by
  have hstub : (queuedRow jobId item).eligibleStub =
      ⟨(snapshot item.mediaItem).mediaItem, item.sourceSubPath, []⟩ := by
    simp only [Job.eligibleStub, queuedRow, snapshot_json, Option.map_some, Option.getD_some]
  have hjson : (queuedRow jobId item).mediaItemJson.isSome = true := by
    simp only [queuedRow, snapshot_json, Option.isSome_some]
  unfold Job.handover
  rw [hstub, hjson]
  simp only [handover, if_true]
  rw [sourceSubPath_of_no_media rfl]
  rfl

/-- An item fares alike at once and from the queue, just when its job keeps what it is made of. -/
theorem cli_daemon_agree_iff (disk : Disk) (settings : TrezarrSettings)
    (seriesByArrId : Str → ℤ → Option SeriesDTO)
    (fetchEpisodes : ℤ → Option (List InventoryEntry)) (item : EligibleItem) (jobId : ℕ) :
    handover disk settings seriesByArrId fetchEpisodes item true =
        (queuedRow jobId item).handover disk settings seriesByArrId fetchEpisodes ↔
      KeptByJob disk settings seriesByArrId fetchEpisodes item := by
  rw [handover_queuedRow]
  simp only [handover, if_true]
  constructor
  · intro h
    injection h with hsource _ _ _ hmetadata
    injection Option.some.inj hmetadata with _ hgenres hoverview hyear hnetwork hruntime
    exact ⟨sourceSubPath_eq_scan_iff.mp hsource, hgenres, hoverview, hyear, hnetwork, hruntime⟩
  · intro h
    rw [sourceSubPath_eq_scan_iff.mpr h.source]
    simp only [arrMetadata, h.genres, h.overview, h.year, h.network, h.runtime]

theorem koreanEpisode_names :
    ∀ name ∈ (["E01.en.srt", "E01.ko.srt"] : List Str), '/' ∉ name := by
  decide

/-- An episode with an English and a Korean source. -/
def koreanEpisode : Disk := tvDisk ["E01.en.srt", "E01.ko.srt"] koreanEpisode_names

def knownEpisode : EligibleItem where
  mediaItem := { localPath := some ⟨"/tv/E01.mkv"⟩, title := some "Drama", genres := some ["Drama"] }
  sourceSubPath := ⟨"/tv/E01.en.srt"⟩
  sourceLang := "en"

/-- At once it is translated from the Korean source and with its genres, from the queue without. -/
theorem queued_from_english :
    (handover koreanEpisode {} (fun _ _ => none) (fun _ => none) knownEpisode true).source =
        ⟨"/tv/E01.ko.srt"⟩ ∧
      ((queuedRow 1 knownEpisode).handover koreanEpisode {} (fun _ _ => none)
        (fun _ => none)).source = ⟨"/tv/E01.en.srt"⟩ ∧
      handover koreanEpisode {} (fun _ _ => none) (fun _ => none) knownEpisode true ≠
        (queuedRow 1 knownEpisode).handover koreanEpisode {} (fun _ _ => none) (fun _ => none) := by
  decide

end Trezarr.Web
