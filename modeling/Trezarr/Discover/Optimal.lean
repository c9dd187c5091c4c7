import Trezarr.Discover.Best

/-! Whether an item is translated from the best source it has. -/
namespace Trezarr
open Text

def vietnamese : List Str := ["vi", "vie"]

/-- The first override with a subtitle of its own, or else the first of the ranking that is not
Vietnamese. -/
def OwnBest (own override : List Str) (originalLanguage : Option Str) (lang : Str) : Prop :=
  (∃ wanted, override.find? (lower · ∈ own) = some wanted ∧ lower wanted = lang) ∨
  (∀ wanted ∈ override, lower wanted ∉ own) ∧ lang ∈ own ∧ lang ∉ vietnamese ∧
    ∀ other ∈ own, other ∉ vietnamese →
      rankKey originalLanguage lang ≤ rankKey originalLanguage other

def SeriesDTO.override (series : Option SeriesDTO) : List Str :=
  (series.bind SeriesDTO.sourceLangOverride).getD []

section Optimal

variable (disk : Disk) (settings : TrezarrSettings) (series : Option SeriesDTO)
  (fetchEpisodes : ℤ → Option (List InventoryEntry)) (item : EligibleItem)

/-- The best language of the item, by its own files. -/
def ItemBest (mediaPath : Path) (lang : Str) : Prop :=
  item.mediaItem.localPath = some mediaPath ∧
    OwnBest (ownLangs disk mediaPath) (SeriesDTO.override series)
      (normalizeOriginalLanguage item.mediaItem.originalLanguage) lang

/-- The source is a file in the best language, if the item has one. -/
def SourceOptimal : Prop :=
  ∀ mediaPath lang, ItemBest disk series item mediaPath lang →
    SidecarIn disk mediaPath lang (sourceSubPath disk settings series fetchEpisodes item)

/-- The best language is what all the languages of the series make preferred, or they prefer none
that the item has a file in and the scan's choice is already the best. -/
def OptimalWhen : Prop :=
  ∀ mediaPath lang, ItemBest disk series item mediaPath lang →
    Prefers disk settings series fetchEpisodes item lang ∨
      (∀ other ∈ ownLangs disk mediaPath, ¬ Prefers disk settings series fetchEpisodes item other) ∧
        SidecarIn disk mediaPath lang item.sourceSubPath

end Optimal

section Theorems

variable {disk : Disk} {settings : TrezarrSettings} {series : Option SeriesDTO}
  {fetchEpisodes : ℤ → Option (List InventoryEntry)} {item : EligibleItem} {mediaPath path : Path}
  {lang : Str} {own available override : List Str} {original : Option Str}

theorem OwnBest.mem (h : OwnBest own override original lang) : lang ∈ own := by
  rcases h with ⟨wanted, hfind, rfl⟩ | ⟨_, hmem, _⟩
  · simpa using List.find?_some hfind
  · exact hmem

/-- The source is the best one just when the selection says so, or stays out of it where the scan
does. -/
theorem source_optimal_iff (disk : Disk) (settings : TrezarrSettings) (series : Option SeriesDTO)
    (fetchEpisodes : ℤ → Option (List InventoryEntry)) (item : EligibleItem) :
    SourceOptimal disk settings series fetchEpisodes item ↔
      OptimalWhen disk settings series fetchEpisodes item := by
  refine forall_congr' fun mediaPath => forall_congr' fun lang => imp_congr_right fun hbest => ?_
  obtain ⟨hmedia, hown⟩ := hbest
  constructor
  · intro hin
    rcases @sourceSubPath_cases disk settings series fetchEpisodes item with
      hfinds | ⟨hnone, hscan⟩
    · obtain ⟨chosen, hprefers, hchosen⟩ := hfinds.sidecarIn hmedia
      exact .inl (hin.lang_unique hchosen ▸ hprefers)
    · refine .inr ⟨fun other hother hprefers => ?_, hscan ▸ hin⟩
      obtain ⟨path, hfinds⟩ := FindsSource.of_own hmedia hprefers hother
      exact hnone path hfinds
  · rintro (hprefers | ⟨hnone, hin⟩)
    · obtain ⟨path, hfinds⟩ := FindsSource.of_own hmedia hprefers hown.mem
      obtain ⟨chosen, hprefers', hchosen⟩ := hfinds.sidecarIn hmedia
      have hsame : chosen = lang := by
        have h := bestLang_iff.mpr hprefers
        have h' := bestLang_iff.mpr hprefers'
        exact Option.some.inj (Except.ok.inj (h'.symm.trans h))
      rw [hfinds.eq, ← hsame]
      exact hchosen
    · rcases @sourceSubPath_cases disk settings series fetchEpisodes item with
        hfinds | ⟨_, hscan⟩
      · obtain ⟨chosen, hprefers, hchosen⟩ := hfinds.sidecarIn hmedia
        exact absurd hprefers (hnone chosen (mem_ownLangs_iff.mpr ⟨_, hchosen⟩))
      · exact hscan ▸ hin

theorem preferred_of_ownBest (hsame : ∀ l, l ∈ available ↔ l ∈ own)
    (hlower : ∀ l ∈ own, lower l = l) (hvi : ∀ l ∈ own, l ∉ vietnamese)
    (h : OwnBest own override original lang) : Preferred available override original lang := by
  simp only [Preferred, hsame]
  rcases h with hfirst | ⟨hnone, hmem, _, hleast⟩
  · exact .inl hfirst
  · refine .inr ⟨hnone, ?_, ?_⟩
    · exact List.mem_map.mpr ⟨lang, (hsame lang).mpr hmem, hlower lang hmem⟩
    · intro other hother
      obtain ⟨code, hcode, rfl⟩ := List.mem_map.mp hother
      have hin := (hsame code).mp hcode
      rw [hlower code hin]
      exact hleast code hin (hvi code hin)

/-- Where the inventory has the languages of the item and no others, none of them is Vietnamese,
and the override is handed on, the source is the best one. -/
theorem optimal_of_own (hmedia : item.mediaItem.localPath = some mediaPath)
    (havailable : availableLangs disk settings item.mediaItem
      (bazarrInventory settings fetchEpisodes item) = .ok available)
    (hsame : ∀ l, l ∈ available ↔ l ∈ ownLangs disk mediaPath)
    (hvi : ∀ l ∈ ownLangs disk mediaPath, l ∉ vietnamese)
    (hoverride : (perSeriesOverride settings series).getD [] = SeriesDTO.override series) :
    SourceOptimal disk settings series fetchEpisodes item := by
  rw [source_optimal_iff]
  rintro mediaPath' lang ⟨hmedia', hbest⟩
  cases hmedia.symm.trans hmedia'
  refine .inl ⟨available, havailable, ?_⟩
  rw [hoverride]
  refine preferred_of_ownBest hsame (fun l hl => ?_) hvi hbest
  obtain ⟨p, hp⟩ := mem_ownLangs_iff.mp hl
  exact lower_of_sidecarIn hp

end Theorems

/-- Two episodes of a series, the second with a Japanese source. -/
def twoEpisodes : Disk := tvDisk ["E01.en.srt", "E01.ko.srt", "E02.ja.srt"] (by decide)

def sonarrEpisode : EligibleItem where
  mediaItem := { localPath := some ⟨"/tv/E01.mkv"⟩, arrKind := some "sonarr", seriesId := some 7 }
  sourceSubPath := ⟨"/tv/E01.en.srt"⟩
  sourceLang := "en"

def japaneseInventory (_ : ℤ) : Option (List InventoryEntry) :=
  some [.item [⟨"ja", "/tv/E02.ja.srt"⟩]]

/-- The Japanese source of the second episode takes the Korean one from the first. -/
theorem english_for_korean :
    sourceSubPath twoEpisodes { bazarrEnabled := true } none japaneseInventory sonarrEpisode =
        ⟨"/tv/E01.en.srt"⟩ ∧
      ¬ SourceOptimal twoEpisodes { bazarrEnabled := true } none japaneseInventory
        sonarrEpisode := by
  have hsource : sourceSubPath twoEpisodes { bazarrEnabled := true } none japaneseInventory
      sonarrEpisode = ⟨"/tv/E01.en.srt"⟩ := by
    decide
  refine ⟨hsource, fun h => ?_⟩
  have hown : ownLangs twoEpisodes ⟨"/tv/E01.mkv"⟩ = ([['e', 'n'], ['k', 'o']] : List Str) := by
    decide
  have hbest : ItemBest twoEpisodes none sonarrEpisode ⟨"/tv/E01.mkv"⟩ "ko" := by
    refine ⟨rfl, .inr ⟨nofun, ?_⟩⟩
    rw [hown]
    decide
  obtain ⟨_, _, _, hin⟩ := h _ _ hbest
  rw [hsource] at hin
  revert hin
  decide

end Trezarr
