import Trezarr.Config
import Trezarr.Discover.Rank
import Trezarr.Discover.Scan
import Trezarr.Subtitles.Dispatch

/-! Which source an item is translated from, and why it can be a translation itself. -/
namespace Trezarr
open Text

structure SubtitleEntry where
  code2 : Str
  path : Str
  deriving DecidableEq, Repr

/-- The inventory lists episodes with their subtitles, or subtitles. -/
inductive InventoryEntry
  | item (subtitles : List SubtitleEntry)
  | entry (sub : SubtitleEntry)
  deriving DecidableEq, Repr

def InventoryEntry.entriesToCheck : InventoryEntry → List SubtitleEntry
  | item subtitles => subtitles
  | entry sub => [sub]

structure SeriesDTO where
  sourceLangOverride : Option (List Str) := none
  registerValue : Option Str := none
  modelOverride : Option Str := none
  deriving DecidableEq, Repr

/-- Source priority, register and model: what the series says, or else the settings. -/
def resolveEffectiveSettings (series : Option SeriesDTO) (settings : TrezarrSettings) :
    List Str × Option Str × Str :=
  match series with
  | none => (settings.sourceLangPriority, none, settings.llmModel)
  | some dto =>
    (dto.sourceLangOverride.getD settings.sourceLangPriority, dto.registerValue,
      dto.modelOverride.getD settings.llmModel)

section Select

variable (disk : Disk) (settings : TrezarrSettings)

/-- A subtitle counts when its mapped path is inside the roots and there. -/
def inventoryLang (sub : SubtitleEntry) : Except OSError (Option Str) :=
  let mappedPath := applyPathMapping sub.path settings.pathMappings
  let mediaRoots := buildMediaRoots settings.pathMappings
  if sub.path = [] ∨ sub.code2 = [] then .ok none
  else if mediaRoots ≠ [] ∧
      ¬ (assertWithinMediaRoots disk.toFileSystem mappedPath mediaRoots).isOk then .ok none
  else match disk.existsError mappedPath with
    | some err => .error err
    | none => .ok (if disk.exists? mappedPath then some (lower sub.code2) else none)

/-- Step 1: the languages of the inventory and of the files next to the media file. -/
def availableLangs (mediaItem : MediaItem) (inventory : Option (List InventoryEntry)) :
    Except OSError (List Str) := do
  let entries := if settings.bazarrUseInventory then inventory.getD [] else []
  let reported ← (entries.flatMap InventoryEntry.entriesToCheck).mapM
    (inventoryLang disk settings)
  let detected := match mediaItem.localPath with
    | none => []
    | some mediaPath => match globSourceSidecars disk mediaPath with
      | .error _ => []
      | .ok candidates => candidates.filterMap (candidateLang mediaPath)
  return reported.filterMap id ++ detected

/-- Step 2: the override first, then the ranking. -/
def selectSourceForItem (mediaItem : MediaItem) (inventory : Option (List InventoryEntry))
    (perSeriesSourceOverride : Option (List Str)) : Except OSError (Option Str) := do
  let available ← availableLangs disk settings mediaItem inventory
  if available = [] then return none
  match (perSeriesSourceOverride.getD []).find? (lower · ∈ available) with
  | some overrideLang => return some (lower overrideLang)
  | none =>
    match rankSources available (normalizeOriginalLanguage mediaItem.originalLanguage) with
    | best :: _ => return some best
    | [] =>
      match settings.sourceLangPriority.find? (lower · ∈ available) with
      | some lang => return some (lower lang)
      | none => return available.head?

variable (series : Option SeriesDTO) (fetchEpisodes : ℤ → Option (List InventoryEntry))
  (item : EligibleItem)

def perSeriesOverride : Option (List Str) :=
  let sourcePriority := (resolveEffectiveSettings series settings).1
  if sourcePriority ≠ settings.sourceLangPriority then some sourcePriority else none

def bazarrInventory : Option (List InventoryEntry) :=
  if settings.bazarrEnabled ∧ settings.bazarrUseInventory ∧
      item.mediaItem.arrKind = some ("sonarr" : Str) then
    item.mediaItem.seriesId.bind fun seriesId => if seriesId ≠ 0 then fetchEpisodes seriesId else none
  else none

def bestLang : Except OSError (Option Str) :=
  selectSourceForItem disk settings item.mediaItem (bazarrInventory settings fetchEpisodes item)
    (perSeriesOverride settings series)

/-- Where the selection fails or its file is gone, the scan's choice stays. -/
def sourceSubPath : Path :=
  match bestLang disk settings series fetchEpisodes item with
  | .error _ => item.sourceSubPath
  | .ok none => item.sourceSubPath
  | .ok (some lang) =>
    match item.mediaItem.localPath with
    | none => item.sourceSubPath
    | some mediaPath =>
      match findSourceSub disk mediaPath [lang] with
      | none => item.sourceSubPath
      | some (path, _) => path

/-- The first override that is available, or else the one the ranking puts before all others. -/
def Preferred (available override : List Str) (originalLanguage : Option Str) (lang : Str) :
    Prop :=
  (∃ wanted, override.find? (lower · ∈ available) = some wanted ∧ lower wanted = lang) ∨
  (∀ wanted ∈ override, lower wanted ∉ available) ∧ lang ∈ available.map lower ∧
    ∀ other ∈ available.map lower, rankKey originalLanguage lang ≤ rankKey originalLanguage other

/-- The languages that are available make this one preferred. -/
def Prefers (lang : Str) : Prop :=
  ∃ available, availableLangs disk settings item.mediaItem
      (bazarrInventory settings fetchEpisodes item) = .ok available ∧
    Preferred available ((perSeriesOverride settings series).getD [])
      (normalizeOriginalLanguage item.mediaItem.originalLanguage) lang

/-- The first file in the preferred language. -/
def FindsSource (path : Path) : Prop :=
  ∃ lang mediaPath found, Prefers disk settings series fetchEpisodes item lang ∧
    item.mediaItem.localPath = some mediaPath ∧
    findSourceSub disk mediaPath [lang] = some (path, found)

/-- Neither the language nor the file is Vietnamese, and the translation goes elsewhere. -/
structure SelfExcluded : Prop where
  language : bestLang disk settings series fetchEpisodes item ≠ .ok (some "vi")
  source : ∀ p, (Format.ofSuffix (disk.resolve p).suffix).isSome →
    deriveViSidecarPath disk.toFileSystem p ≠
      disk.resolve (sourceSubPath disk settings series fetchEpisodes item)
  own : deriveViSidecarPath disk.toFileSystem
      (sourceSubPath disk settings series fetchEpisodes item) ≠
    disk.resolve (sourceSubPath disk settings series fetchEpisodes item)

/-- Vietnamese is not preferred, no link leads from the source that is found to a file with the
name of a sidecar, and where none is found the scan's choice leads to no such file. -/
structure PassesOverVi : Prop where
  language : ¬ Prefers disk settings series fetchEpisodes item "vi"
  renamed : ∀ path, FindsSource disk settings series fetchEpisodes item path →
    (disk.resolve path).name ≠ path.name → ¬ ViNamed (disk.resolve path)
  kept : (∀ path, ¬ FindsSource disk settings series fetchEpisodes item path) →
    ¬ ViNamed (disk.resolve item.sourceSubPath)

end Select

section Theorems

variable {disk : Disk} {settings : TrezarrSettings} {series : Option SeriesDTO}
  {fetchEpisodes : ℤ → Option (List InventoryEntry)} {item : EligibleItem} {lang : Str}
  {mediaItem : MediaItem} {inventory : Option (List InventoryEntry)}
  {override : Option (List Str)} {available : List Str} {original : Option Str}

theorem not_preferred_nil : ¬ Preferred [] (override.getD []) original lang := by
  rintro (⟨wanted, hfind, _⟩ | ⟨_, hmem, _⟩)
  · simpa using List.find?_some hfind
  · cases hmem

/-- The selection finds the preferred language, and only that. -/
theorem selectSourceForItem_iff :
    selectSourceForItem disk settings mediaItem inventory override = .ok (some lang) ↔
      ∃ available, availableLangs disk settings mediaItem inventory = .ok available ∧
        Preferred available (override.getD [])
          (normalizeOriginalLanguage mediaItem.originalLanguage) lang := by
  unfold selectSourceForItem
  cases havailable : availableLangs disk settings mediaItem inventory with
  | error err => exact iff_of_false nofun (by rintro ⟨_, ⟨⟩, _⟩)
  | ok available =>
    have hexists : (∃ a, Except.ok available = (Except.ok a : Except OSError _) ∧
        Preferred a (override.getD []) (normalizeOriginalLanguage mediaItem.originalLanguage)
          lang) ↔ Preferred available (override.getD [])
            (normalizeOriginalLanguage mediaItem.originalLanguage) lang := by
      constructor
      · rintro ⟨a, ha, hpreferred⟩
        cases ha
        exact hpreferred
      · exact fun hpreferred => ⟨available, rfl, hpreferred⟩
    rw [hexists]
    show (if available = [] then (Except.ok none : Except OSError (Option Str)) else _) = _ ↔ _
    split
    next hnil =>
      subst hnil
      exact iff_of_false nofun not_preferred_nil
    next hne =>
      cases hfind : (override.getD []).find? (lower · ∈ available) with
      | some wanted =>
        constructor
        · intro h
          exact .inl ⟨wanted, hfind, Option.some.inj (Except.ok.inj h)⟩
        · rintro (⟨wanted', hfind', rfl⟩ | ⟨hnone, _⟩)
          · cases hfind.symm.trans hfind'
            rfl
          · have hin : lower wanted ∈ available := by simpa using List.find?_some hfind
            exact absurd hin (hnone wanted (List.mem_of_find?_eq_some hfind))
      | none =>
        have hnone : ∀ wanted ∈ override.getD [], lower wanted ∉ available := by
          intro wanted hwanted
          simpa using List.find?_eq_none.mp hfind wanted hwanted
        have hpreferred : Preferred available (override.getD [])
            (normalizeOriginalLanguage mediaItem.originalLanguage) lang ↔
              (rankSources available
                (normalizeOriginalLanguage mediaItem.originalLanguage)).head? = some lang := by
          rw [head?_rankSources_iff]
          constructor
          · rintro (⟨wanted, hfind', _⟩ | ⟨_, hleast⟩)
            · cases hfind.symm.trans hfind'
            · exact hleast
          · exact fun hleast => .inr ⟨hnone, hleast⟩
        rw [hpreferred]
        cases hrank : rankSources available
            (normalizeOriginalLanguage mediaItem.originalLanguage) with
        | nil => exact absurd hrank (rankSources_ne_nil hne)
        | cons best rest =>
          rw [List.head?_cons]
          exact ⟨Except.ok.inj, congrArg Except.ok⟩

theorem lower_of_preferred (h : Preferred available (override.getD []) original lang) :
    lower lang = lang := by
  rcases h with ⟨wanted, _, rfl⟩ | ⟨_, hmem, _⟩
  · exact lower_lower wanted
  · obtain ⟨code, _, rfl⟩ := List.mem_map.mp hmem
    exact lower_lower code

theorem bestLang_iff : bestLang disk settings series fetchEpisodes item = .ok (some lang) ↔
    Prefers disk settings series fetchEpisodes item lang := selectSourceForItem_iff

/-- The path is the one the preferred language finds, or the scan's. -/
theorem sourceSubPath_cases :
    FindsSource disk settings series fetchEpisodes item
        (sourceSubPath disk settings series fetchEpisodes item) ∨
      (∀ path, ¬ FindsSource disk settings series fetchEpisodes item path) ∧
        sourceSubPath disk settings series fetchEpisodes item = item.sourceSubPath := by
  have hnot : (∀ lang mediaPath path found,
      bestLang disk settings series fetchEpisodes item = .ok (some lang) →
      item.mediaItem.localPath = some mediaPath →
      findSourceSub disk mediaPath [lang] ≠ some (path, found)) →
      ∀ path, ¬ FindsSource disk settings series fetchEpisodes item path := by
    rintro h path ⟨lang, mediaPath, found, hprefers, hmedia, hfound⟩
    exact h lang mediaPath path found (bestLang_iff.mpr hprefers) hmedia hfound
  unfold sourceSubPath
  cases hbest : bestLang disk settings series fetchEpisodes item with
  | error err => exact .inr ⟨hnot fun _ _ _ _ h => (by cases hbest.symm.trans h), rfl⟩
  | ok best =>
    cases best with
    | none => exact .inr ⟨hnot fun _ _ _ _ h => (by cases hbest.symm.trans h), rfl⟩
    | some lang =>
      dsimp only
      cases hmedia : item.mediaItem.localPath with
      | none =>
        exact .inr ⟨hnot fun _ _ _ _ _ h => (by cases hmedia.symm.trans h), rfl⟩
      | some mediaPath =>
        dsimp only
        cases hfound : findSourceSub disk mediaPath [lang] with
        | none =>
          refine .inr ⟨hnot fun lang' mediaPath' path found hbest' hmedia' hfound' => ?_, rfl⟩
          cases hbest.symm.trans hbest'
          cases hmedia.symm.trans hmedia'
          cases hfound.symm.trans hfound'
        | some result =>
          exact .inl ⟨lang, mediaPath, result.2, bestLang_iff.mp hbest, hmedia, hfound⟩

/-- A file in another language than Vietnamese has another name than a sidecar. -/
theorem FindsSource.not_viNamed {path : Path}
    (h : FindsSource disk settings series fetchEpisodes item path)
    (hvi : ¬ Prefers disk settings series fetchEpisodes item "vi")
    (hname : (disk.resolve path).name = path.name) : ¬ ViNamed (disk.resolve path) := by
  obtain ⟨lang, mediaPath, found, hprefers, _, hfound⟩ := h
  obtain ⟨⟨wanted, hwanted, rfl⟩, code, hcode, hlower⟩ := findSourceSub_some hfound
  rw [List.mem_singleton.mp hwanted] at hlower
  obtain ⟨available, _, hpreferred⟩ := id hprefers
  rw [lower_of_preferred hpreferred] at hlower
  rw [← hname] at hcode
  rw [hcode.viNamed_iff]
  rintro rfl
  have hlow : lower ("vi" : Str) = "vi" := by decide
  rw [hlow] at hlower
  exact hvi (hlower ▸ hprefers)

/-- A sidecar of a subtitle has the name of one. -/
theorem viNamed_of_derived {fs : FileSystem} {p : Path}
    (hformat : (Format.ofSuffix (fs.resolve p).suffix).isSome) :
    ViNamed (deriveViSidecarPath fs p) := by
  have hsuffix : ∃ ext ∈ sourceSuffixes, lower (fs.resolve p).suffix = '.' :: ext := by
    unfold Format.ofSuffix at hformat
    dsimp only at hformat
    split at hformat
    next h => exact ⟨"srt", by decide, h⟩
    next =>
      split at hformat
      next h =>
        rcases h with h | h
        · exact ⟨"ass", by decide, h⟩
        · exact ⟨"ssa", by decide, h⟩
      next =>
        split at hformat
        next h => exact ⟨"vtt", by decide, h⟩
        next => cases hformat
  obtain ⟨ext, hext, hlower⟩ := hsuffix
  have hslash : ∀ ext ∈ sourceSuffixes, '/' ∉ ext := by decide
  obtain ⟨hne, hdot, _⟩ := sourceSuffix_facts ext hext
  rw [deriveViSidecarPath_eq]
  exact viNamed_viSidecarOf hlower hne hdot (hslash ext hext)

theorem FindsSource.eq {path : Path}
    (h : FindsSource disk settings series fetchEpisodes item path) :
    sourceSubPath disk settings series fetchEpisodes item = path := by
  obtain ⟨lang, mediaPath, found, hprefers, hmedia, hfound⟩ := h
  simp only [sourceSubPath, bestLang_iff.mpr hprefers, hmedia, hfound]

end Theorems

/-- An item's source is kept apart from its translation just when Vietnamese is passed over. -/
theorem self_excluded_iff (disk : Disk) (settings : TrezarrSettings) (series : Option SeriesDTO)
    (fetchEpisodes : ℤ → Option (List InventoryEntry)) (item : EligibleItem) :
    SelfExcluded disk settings series fetchEpisodes item ↔
      PassesOverVi disk settings series fetchEpisodes item := by
  have hlanguage : bestLang disk settings series fetchEpisodes item ≠ .ok (some "vi") ↔
      ¬ Prefers disk settings series fetchEpisodes item "vi" := not_congr bestLang_iff
  have hown : deriveViSidecarPath disk.toFileSystem
      (sourceSubPath disk settings series fetchEpisodes item) ≠
        disk.resolve (sourceSubPath disk settings series fetchEpisodes item) ↔
      ¬ ViNamed (disk.resolve (sourceSubPath disk settings series fetchEpisodes item)) := by
    rw [Ne, deriveViSidecarPath_eq, viSidecarOf_eq_self_iff]
  have hcases := @sourceSubPath_cases disk settings series fetchEpisodes item
  constructor
  · rintro ⟨hbest, _, hself⟩
    rw [hown] at hself
    refine ⟨hlanguage.mp hbest, fun path hfinds _ => ?_, fun hnone => ?_⟩
    · rwa [hfinds.eq] at hself
    · rcases hcases with hfinds | ⟨_, hkept⟩
      · exact absurd hfinds (hnone _)
      · rwa [hkept] at hself
  · rintro ⟨hprefers, hrenamed, hkept⟩
    have hvi : ¬ ViNamed (disk.resolve
        (sourceSubPath disk settings series fetchEpisodes item)) := by
      rcases hcases with hfinds | ⟨hnone, hscan⟩
      · by_cases hname : (disk.resolve (sourceSubPath disk settings series fetchEpisodes
            item)).name = (sourceSubPath disk settings series fetchEpisodes item).name
        · exact hfinds.not_viNamed hprefers hname
        · exact hrenamed _ hfinds hname
      · rw [hscan]
        exact hkept hnone
    refine ⟨hlanguage.mpr hprefers, fun p hformat heq => ?_, hown.mpr hvi⟩
    exact hvi (heq ▸ viNamed_of_derived hformat)

/-- An episode next to its English source and its finished translation. -/
def translatedEpisode : Disk where
  toFileSystem := .linking ⟨"/link"⟩ ⟨"/link"⟩ fun p =>
    if p = ⟨"/tv/E01.en.srt"⟩ then some { content := [], writer := .other }
    else if p = ⟨"/tv/E01.vi.srt"⟩ then some { content := [], writer := .trezarr }
    else none
  listing dir := .ok (if dir = ("/tv/" : Str) then ["E01.en.srt", "E01.vi.srt"] else [])
  existsError _ := none
  listing_component := by
    intro dir names name h hname
    cases h
    split at hname
    next =>
      simp only [List.mem_cons, List.not_mem_nil, or_false] at hname
      rcases hname with rfl | rfl
      · decide
      · decide
    next => cases hname

def englishEpisode : EligibleItem :=
  ⟨{ localPath := some ⟨"/tv/E01.mkv"⟩ }, ⟨"/tv/E01.en.srt"⟩, "en"⟩

/-- A language without a tier ranks before English, so the translation is its own next source. -/
theorem translation_chosen :
    ¬ SelfExcluded translatedEpisode {} none (fun _ => none) englishEpisode := by
  intro h
  exact h.language (by decide)

/-- The files of one directory. -/
def tvDirectory (names : List Str) (h : ∀ name ∈ names, '/' ∉ name) : Directories where
  listing dir := .ok (if dir = ("/tv/" : Str) then names else [])
  existsError _ := none
  listing_component := by
    intro dir listed name hlisted hname
    cases hlisted
    split at hname
    next => exact h name hname
    next => cases hname

/-- A disk with empty files in one directory. -/
def tvDisk (names : List Str) (h : ∀ name ∈ names, '/' ∉ name) : Disk where
  toFileSystem := .linking ⟨"/link"⟩ ⟨"/link"⟩ fun p =>
    if p.parent = ("/tv/" : Str) ∧ p.name ∈ names then some { content := [], writer := .other }
    else none
  toDirectories := tvDirectory names h

end Trezarr
