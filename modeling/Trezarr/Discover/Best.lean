import Trezarr.Discover.Select
import Trezarr.Lib.Fallible

/-! The best source of an item: which languages it has files in, and how they are ranked. -/
namespace Trezarr
open Text Sorting Fallible

/-- A name that a scan takes for a subtitle of the media file. -/
def NamedFor (mediaPath p : Path) : Prop :=
  p.parent = mediaPath.parent ∧ ∃ suffix ∈ sourceSuffixes, globMatch mediaPath.stem suffix p.name

instance (mediaPath p : Path) : Decidable (NamedFor mediaPath p) :=
  inferInstanceAs (Decidable (_ ∧ ∃ suffix ∈ sourceSuffixes, globMatch _ suffix _ = true))

/-- The languages with a subtitle of their own next to the media file. -/
def ownLangs (disk : Disk) (mediaPath : Path) : List Str :=
  match globSourceSidecars disk mediaPath with
  | .error _ => []
  | .ok candidates => candidates.filterMap (candidateLang mediaPath)

/-- A file of the media file in that language. -/
def SidecarIn (disk : Disk) (mediaPath : Path) (lang : Str) (p : Path) : Prop :=
  ∃ candidates, globSourceSidecars disk mediaPath = .ok candidates ∧ p ∈ candidates ∧
    candidateLang mediaPath p = some lang

/-- The place of a language: in the override first, and in the ranking among the others. -/
def sourceRank (override : List Str) (originalLanguage : Option Str) (lang : Str) :
    ℕ ×ₗ (ℕ ×ₗ Str) :=
  toLex (override.findIdx (lower · = lang), rankKey originalLanguage lang)

section Candidates

variable {disk : Disk} {mediaPath p : Path} {candidates : List Path} {lang found : Str}

theorem mem_candidates_iff (h : globSourceSidecars disk mediaPath = .ok candidates) :
    p ∈ candidates ↔ NamedFor mediaPath p ∧
      ∃ names, disk.listing mediaPath.parent = .ok names ∧ p.name ∈ names := by
  constructor
  · intro hmem
    obtain ⟨hparent, hglob, hnames⟩ := listed_of_mem_globSourceSidecars h hmem
    exact ⟨⟨hparent, hglob⟩, hnames⟩
  · rintro ⟨⟨hparent, suffix, hsuffix, hglob⟩, names, hnames, hlisted⟩
    unfold globSourceSidecars at h
    rw [hnames] at h
    cases h
    refine List.mem_map.mpr ⟨p.name, mem_sortOn.mpr (List.mem_flatMap.mpr ⟨suffix, hsuffix,
      List.mem_filter.mpr ⟨hlisted, hglob⟩⟩), Path.eq_of_str ?_⟩
    rw [← hparent]
    exact p.parent_append_name

theorem globSourceSidecars_ok {names : List Str}
    (h : disk.listing mediaPath.parent = .ok names) :
    ∃ candidates, globSourceSidecars disk mediaPath = .ok candidates := by
  unfold globSourceSidecars
  rw [h]
  exact ⟨_, rfl⟩

theorem mem_ownLangs_iff : lang ∈ ownLangs disk mediaPath ↔ ∃ p, SidecarIn disk mediaPath lang p := by
  unfold ownLangs SidecarIn
  cases globSourceSidecars disk mediaPath with
  | error err => simp
  | ok candidates =>
    simp only [List.mem_filterMap]
    constructor
    · rintro ⟨p, hp, hlang⟩
      exact ⟨p, candidates, rfl, hp, hlang⟩
    · rintro ⟨p, _, ⟨⟩, hp, hlang⟩
      exact ⟨p, hp, hlang⟩

theorem lower_of_sidecarIn (h : SidecarIn disk mediaPath lang p) : lower lang = lang := by
  obtain ⟨_, _, _, hlang⟩ := h
  obtain ⟨code, _, rfl⟩ := candidateLang_some hlang
  exact lower_lower code

/-- What is found in a language is a file in it, -/
theorem sidecarIn_of_findSourceSub
    (h : findSourceSub disk mediaPath [lang] = some (p, found)) :
    SidecarIn disk mediaPath (lower lang) p := by
  unfold findSourceSub at h
  split at h
  next => cases h
  next candidates hglob =>
    obtain ⟨wanted, hwanted, hlookup⟩ := List.exists_of_findSome?_eq_some h
    rw [List.mem_singleton.mp hwanted] at hlookup
    obtain ⟨path, hfound, hpair⟩ := Option.map_eq_some_iff.mp hlookup
    cases hpair
    obtain ⟨before, after, hsplit, _⟩ := List.lookup_eq_some_iff.mp hfound
    have hmem : (lower lang, p) ∈ candidates.filterMap fun candidate =>
        (candidateLang mediaPath candidate).map fun lang => (lang, candidate) := by
      rw [hsplit]
      exact List.mem_append_right _ List.mem_cons_self
    obtain ⟨candidate, hcandidate, hpair⟩ := List.mem_filterMap.mp hmem
    obtain ⟨lang', hlang, hpair⟩ := Option.map_eq_some_iff.mp hpair
    cases hpair
    exact ⟨candidates, hglob, hcandidate, hlang⟩

/-- and a language with a file is found in one. -/
theorem findSourceSub_of_sidecarIn (h : SidecarIn disk mediaPath (lower lang) p) :
    ∃ path found, findSourceSub disk mediaPath [lang] = some (path, found) := by
  obtain ⟨candidates, hglob, hp, hlang⟩ := h
  unfold findSourceSub
  rw [hglob]
  have hmem : (lower lang, p) ∈ candidates.filterMap fun candidate =>
      (candidateLang mediaPath candidate).map fun lang => (lang, candidate) :=
    List.mem_filterMap.mpr ⟨p, hp, by rw [hlang]; rfl⟩
  cases hlookup : (candidates.filterMap fun candidate =>
      (candidateLang mediaPath candidate).map fun lang => (lang, candidate)).lookup
        (lower lang) with
  | none =>
    have hnone := List.lookup_eq_none_iff.mp hlookup _ hmem
    simp at hnone
  | some path =>
    refine ⟨path, lower lang, ?_⟩
    simp only [List.findSome?_cons, hlookup, Option.map_some]

end Candidates

theorem sourceRank_injective {override : List Str} {original : Option Str} :
    Function.Injective (sourceRank override original) := by
  intro a b h
  exact rankKey_injective original (congrArg (fun rank => (ofLex rank).2) h)

section Preferred

variable {available own override : List Str} {original : Option Str} {lang other : Str}

/-- What is preferred is ranked before all that is available. -/
theorem Preferred.le (h : Preferred available override original lang)
    (hlower : ∀ l ∈ available, lower l = l) (hother : other ∈ available) :
    sourceRank override original lang ≤ sourceRank override original other := by
  rcases h with ⟨wanted, hfind, rfl⟩ | ⟨hnone, hmem, hleast⟩
  · obtain ⟨_, before, after, rfl, hbefore⟩ := List.find?_eq_some_iff_append.mp hfind
    -- the languages before the one that is found are not available
    have hskipped : ∀ l ∈ before, lower l ≠ other := by
      intro l hl heq
      have hnot := hbefore l hl
      simp [heq, hother] at hnot
    have hfound : (before ++ wanted :: after).findIdx (lower · = lower wanted) ≤ before.length := by
      by_contra hlt
      have hnot := List.not_of_lt_findIdx (Nat.lt_of_not_le hlt)
      simp at hnot
    have hpassed : (before ++ wanted :: after).findIdx (lower · = other) =
        before.length + (wanted :: after).findIdx (lower · = other) := by
      rw [List.findIdx_append, if_neg]
      · omega
      · rw [List.findIdx_eq_length_of_false]
        · exact Nat.lt_irrefl _
        · intro l hl
          exact decide_eq_false (hskipped l hl)
    by_cases heq : lower wanted = other
    · rw [heq]
    · refine le_of_lt (Prod.Lex.toLex_lt_toLex.mpr (.inl ?_))
      rw [hpassed, List.findIdx_cons]
      simp only [heq, decide_false, cond_false]
      omega
  · obtain ⟨code, hcode, rfl⟩ := List.mem_map.mp hmem
    have habsent : ∀ l ∈ available, override.findIdx (lower · = l) = override.length := by
      intro l hl
      apply List.findIdx_eq_length_of_false
      intro wanted hwanted
      exact decide_eq_false fun heq => hnone wanted hwanted (heq ▸ hl)
    refine Prod.Lex.toLex_le_toLex.mpr (.inr ⟨?_, ?_⟩)
    · rw [hlower code hcode, habsent code hcode, habsent other hother]
    · exact hleast other (List.mem_map.mpr ⟨other, hother, hlower other hother⟩)

end Preferred

section Selection

variable {disk : Disk} {settings : TrezarrSettings} {series : Option SeriesDTO}
  {fetchEpisodes : ℤ → Option (List InventoryEntry)} {item : EligibleItem} {mediaPath path : Path}
  {lang : Str} {mediaItem : MediaItem} {inventory : Option (List InventoryEntry)}
  {available : List Str}

theorem lower_of_inventoryLang {sub : SubtitleEntry}
    (h : inventoryLang disk settings sub = .ok (some lang)) : lower lang = lang := by
  unfold inventoryLang at h
  dsimp only at h
  split at h
  next => cases h
  next =>
    split at h
    next => cases h
    next =>
      split at h
      next => cases h
      next =>
        split at h
        next =>
          cases h
          exact lower_lower sub.code2
        next => cases h

theorem mem_available_of_own (hmedia : mediaItem.localPath = some mediaPath)
    (h : availableLangs disk settings mediaItem inventory = .ok available)
    (hown : lang ∈ ownLangs disk mediaPath) : lang ∈ available := by
  obtain ⟨reported, _, hreturn⟩ := bind_ok h
  cases hreturn
  rw [hmedia]
  exact List.mem_append_right _ hown

/-- A language that is available is in lower case. -/
theorem lower_of_available (h : availableLangs disk settings mediaItem inventory = .ok available) :
    ∀ lang ∈ available, lower lang = lang := by
  obtain ⟨reported, hreported, hreturn⟩ := bind_ok h
  cases hreturn
  intro lang hlang
  rcases List.mem_append.mp hlang with hlang | hlang
  · obtain ⟨found, hfound, hsome⟩ := List.mem_filterMap.mp hlang
    obtain ⟨i, hi, hget⟩ := List.mem_iff_getElem.mp hfound
    have hall := mapM_ok hreported
    have hone := hall.get (hall.length_eq ▸ hi) hi
    rw [List.get_eq_getElem, List.get_eq_getElem, hget, show found = some lang from hsome] at hone
    exact lower_of_inventoryLang hone
  · cases hmedia : mediaItem.localPath with
    | none =>
      rw [hmedia] at hlang
      cases hlang
    | some mediaPath =>
      rw [hmedia] at hlang
      obtain ⟨p, hp⟩ := mem_ownLangs_iff.mp (show lang ∈ ownLangs disk mediaPath from hlang)
      exact lower_of_sidecarIn hp

/-- A preferred language that the item has a file in leads to one. -/
theorem FindsSource.of_own (hmedia : item.mediaItem.localPath = some mediaPath)
    (hprefers : Prefers disk settings series fetchEpisodes item lang)
    (hown : lang ∈ ownLangs disk mediaPath) :
    ∃ path, FindsSource disk settings series fetchEpisodes item path := by
  obtain ⟨p, hp⟩ := mem_ownLangs_iff.mp hown
  have hlower := lower_of_sidecarIn hp
  obtain ⟨path, found, hfound⟩ := findSourceSub_of_sidecarIn (hlower.symm ▸ hp : SidecarIn disk mediaPath (lower lang) p)
  exact ⟨path, lang, mediaPath, found, hprefers, hmedia, hfound⟩

theorem FindsSource.sidecarIn (hmedia : item.mediaItem.localPath = some mediaPath)
    (h : FindsSource disk settings series fetchEpisodes item path) :
    ∃ lang, Prefers disk settings series fetchEpisodes item lang ∧
      SidecarIn disk mediaPath lang path := by
  obtain ⟨lang, mediaPath', found, hprefers, hmedia', hfound⟩ := h
  cases hmedia.symm.trans hmedia'
  obtain ⟨available, _, hpreferred⟩ := id hprefers
  have hin := sidecarIn_of_findSourceSub hfound
  rw [lower_of_preferred hpreferred] at hin
  exact ⟨lang, hprefers, hin⟩

theorem SidecarIn.lang_unique {lang' : Str} (h : SidecarIn disk mediaPath lang path)
    (h' : SidecarIn disk mediaPath lang' path) : lang = lang' := by
  obtain ⟨_, _, _, hlang⟩ := h
  obtain ⟨_, _, _, hlang'⟩ := h'
  exact Option.some.inj (hlang.symm.trans hlang')

end Selection

end Trezarr
