import Trezarr.Bible.NameLocks

/-! How many renderings of one character the merges of a series lock. -/
namespace Trezarr
open Text Rows BibleRow Fallible Runs

/-- The keys of the terms that stand for a character. -/
def nameKeys (c : CharacterInference) : List Str :=
  if stripped c.originalScriptName ≠ [] then [latinKey c, lower (stripped c.originalScriptName)]
  else [latinKey c]

def lockedRenderings (seriesId : ℕ) (c : CharacterInference) (s : Store) : List Str :=
  ((pinnedTerms s).filter fun p => p.seriesId = seriesId ∧ nameKey p.sourceTerm ∈ nameKeys c).map
    PinnedTerm.vietnameseRendering

instance (existing linked : List Str) (c : CharacterInference) :
    Decidable (Unnamed existing linked c) := inferInstanceAs (Decidable (_ ∧ _))

/-- The episode's characters take up a name of `c` although it is not linked to a locked one. -/
def NamesAnew (c : CharacterInference) (characters : List CharacterInference)
    (terms : List TermDictionary) (c₁ : CharacterInference) : Prop :=
  Unnamed (existingSources terms) (linkedNames characters terms) c₁ ∧ sourceKey c₁ ∈ nameKeys c

instance (c : CharacterInference) (characters : List CharacterInference)
    (terms : List TermDictionary) (c₁ : CharacterInference) :
    Decidable (NamesAnew c characters terms c₁) := inferInstanceAs (Decidable (_ ∧ _))

/-- Whoever takes up a name of the character has the locked rendering, and one for all names. -/
def NamesAgree (c : CharacterInference) (characters : List CharacterInference)
    (terms : List TermDictionary) (locked : List Str) : Prop :=
  (∀ c₁ ∈ characters, NamesAnew c characters terms c₁ → ∀ rendering ∈ locked,
    canonicalRendering (renderingByLatin terms) c₁ = rendering) ∧
  ∀ c₁ ∈ characters, ∀ c₂ ∈ characters, NamesAnew c characters terms c₁ →
    NamesAnew c characters terms c₂ → latinKey c₁ ≠ latinKey c₂ → sourceKey c₁ ≠ sourceKey c₂ →
      canonicalRendering (renderingByLatin terms) c₁ = canonicalRendering (renderingByLatin terms) c₂

instance (c : CharacterInference) (characters : List CharacterInference)
    (terms : List TermDictionary) (locked : List Str) :
    Decidable (NamesAgree c characters terms locked) := inferInstanceAs (Decidable (_ ∧ _))

/-- The condition on an episode, on the terms its locking step reads. -/
def EpisodeAgrees (seriesId : ℕ) (c : CharacterInference) (s : Store) (m : EpisodeMerge) : Prop :=
  LocksNames m.down seriesId m.analysis m.episodeKey s →
    NamesAgree c m.analysis.characters
      (termsRead m.down seriesId (termsMerged m.down seriesId m.analysis m.episodeKey s).store)
      (lockedRenderings seriesId c s)

instance (seriesId : ℕ) (c : CharacterInference) (s : Store) (m : EpisodeMerge) :
    Decidable (EpisodeAgrees seriesId c s m) := inferInstanceAs (Decidable (_ → _))

variable {down : MergeCall → Bool} {seriesId : ℕ} {analysis : BibleAnalysis} {episodeKey : Str}
  {s s' : Store} {c : CharacterInference} {spec : NameTermSpec} {i : ℕ} {p : PinnedTerm}
  {rendering : Str}

theorem mem_lockedRenderings : rendering ∈ lockedRenderings seriesId c s ↔
    ∃ p ∈ pinnedTerms s, (p.seriesId = seriesId ∧ nameKey p.sourceTerm ∈ nameKeys c) ∧
      p.vietnameseRendering = rendering := by
  simp [lockedRenderings, and_assoc]

theorem lockRow_pinned (row : TermDictionary) (rendering : Str) :
    (lockRow row rendering).rendersLocked = true ∧
      (lockRow row rendering).pinned = ⟨row.id, row.seriesId, row.sourceTerm, rendering⟩ := by
  have hvalue := (lockRow_value row rendering .vietnameseRendering).trans (if_pos rfl)
  have hrendering : (lockRow row rendering).vietnameseRendering = rendering :=
    Option.some_inj.mp hvalue
  obtain ⟨hseries, hsource⟩ := lockRow_ident row rendering
  refine ⟨decide_eq_true ((lockRow_locked row rendering _).mpr (Or.inl rfl)), ?_⟩
  rw [TermDictionary.pinned, lockRow_id, hseries, hsource, hrendering]

/-- The locking of a name pins its term and nothing else. -/
theorem mem_pinned_lockName (h : p ∈ pinnedTerms (lockName down seriesId s spec i)) :
    p ∈ pinnedTerms s ∨ p.seriesId = seriesId ∧ p.sourceTerm = spec.sourceTerm ∧
      p.vietnameseRendering = spec.vietnameseRendering := by
  obtain ⟨row, hrow, hlocked, rfl⟩ := mem_pinnedTerms.mp h
  obtain hs | ⟨-, hs⟩ | ⟨-, -, found, hfound, hs⟩ := lockName_cases down seriesId s spec i
  · rw [hs] at hrow
    exact Or.inl (mem_pinnedTerms.mpr ⟨row, hrow, hlocked, rfl⟩)
  · rw [hs] at hrow
    rcases List.mem_append.mp hrow with hrow | hrow
    · exact Or.inl (mem_pinnedTerms.mpr ⟨row, hrow, hlocked, rfl⟩)
    · rw [List.mem_singleton.mp hrow]
      exact Or.inr ⟨rfl, rfl, rfl⟩
  · rw [hs] at hrow
    obtain ⟨old, hold, he⟩ := List.mem_map.mp hrow
    have hm : found ∈ findTermExact s seriesId spec.sourceTerm := by simp [hfound]
    obtain ⟨-, hseries, hsource⟩ := mem_findTermExact.mp hm
    by_cases hid : Keyed.id old = Keyed.id (lockRow found spec.vietnameseRendering)
    · rw [if_pos hid] at he
      rw [← he, (lockRow_pinned found _).2]
      exact Or.inr ⟨hseries, hsource, rfl⟩
    · rw [if_neg hid] at he
      exact Or.inl (mem_pinnedTerms.mpr ⟨row, he ▸ hold, hlocked, rfl⟩)

/-- A pinned term stays as it is unless it is the one that is locked again. -/
theorem pinned_lockName_of_mem (h : p ∈ pinnedTerms s) :
    p ∈ pinnedTerms (lockName down seriesId s spec i) ∨
      ∃ row, findTermExact s seriesId spec.sourceTerm = [row] ∧ row.rendersLocked = true ∧
        row.pinned = p ∧ { p with vietnameseRendering := spec.vietnameseRendering } ∈
          pinnedTerms (lockName down seriesId s spec i) := by
  obtain ⟨row, hrow, hlocked, rfl⟩ := mem_pinnedTerms.mp h
  obtain hs | ⟨-, hs⟩ | ⟨-, -, found, hfound, hs⟩ := lockName_cases down seriesId s spec i
  · rw [hs]
    exact Or.inl h
  · refine Or.inl (mem_pinnedTerms.mpr ⟨row, ?_, hlocked, rfl⟩)
    rw [hs]
    exact List.mem_append_left _ hrow
  · have hput : ∀ old ∈ s.termDictionary.rows,
        (if Keyed.id old = Keyed.id (lockRow found spec.vietnameseRendering) then
          lockRow found spec.vietnameseRendering else old) ∈
            (lockName down seriesId s spec i).termDictionary.rows := by
      rw [hs]
      exact fun old hold => List.mem_map_of_mem hold
    have hnew := hput row hrow
    by_cases hid : Keyed.id row = Keyed.id (lockRow found spec.vietnameseRendering)
    · have hm : found ∈ findTermExact s seriesId spec.sourceTerm := by simp [hfound]
      have hsame : row = found := by
        have hget := Table.mem_iff_get?.mp (mem_findTermExact.mp hm).1
        exact Table.eq_of_id_eq hget hrow (hid.trans (lockRow_id _ _))
      subst hsame
      rw [if_pos hid] at hnew
      obtain ⟨hpins, hpinned⟩ := lockRow_pinned row spec.vietnameseRendering
      exact Or.inr ⟨row, hfound, hlocked, rfl, mem_pinnedTerms.mpr ⟨_, hnew, hpins, hpinned⟩⟩
    · rw [if_neg hid] at hnew
      exact Or.inl (mem_pinnedTerms.mpr ⟨row, hnew, hlocked, rfl⟩)

theorem mem_pinned_lockNames (h : p ∈ pinnedTerms (lockNames down seriesId analysis s)) :
    p ∈ pinnedTerms s ∨ ∃ spec ∈ plannedNames down seriesId analysis s, p.seriesId = seriesId ∧
      p.sourceTerm = spec.sourceTerm ∧ p.vietnameseRendering = spec.vietnameseRendering := by
  revert p
  refine lockNames_related
    (R := fun a b => ∀ {p}, p ∈ pinnedTerms b → p ∈ pinnedTerms a ∨ ∃ spec ∈
      plannedNames down seriesId analysis s, p.seriesId = seriesId ∧
        p.sourceTerm = spec.sourceTerm ∧ p.vietnameseRendering = spec.vietnameseRendering)
    (fun _ _ => Or.inl) (fun _ _ _ h h' p hp => (h' hp).elim (fun hp => h hp) Or.inr)
    fun st _ x hx _ p hp => ?_
  rcases mem_pinned_lockName hp with hp | hp
  · exact Or.inl hp
  · exact Or.inr ⟨x.1, fst_mem_of_mem_zipIdx hx, hp⟩

/-- The names an episode plans for the character have the renderings the condition speaks of. -/
theorem planned_agree {characters : List CharacterInference} {terms : List TermDictionary}
    {locked : List Str} (h : NamesAgree c characters terms locked) :
    (∀ spec ∈ planCharacterNameTerms characters terms, lower spec.sourceTerm ∈ nameKeys c →
      ∀ rendering ∈ locked, spec.vietnameseRendering = rendering) ∧
    ∀ spec₁ ∈ planCharacterNameTerms characters terms,
      ∀ spec₂ ∈ planCharacterNameTerms characters terms, lower spec₁.sourceTerm ∈ nameKeys c →
        lower spec₂.sourceTerm ∈ nameKeys c →
          spec₁.vietnameseRendering = spec₂.vietnameseRendering := by
  obtain ⟨taken, hchars, hspecs, hunnamed, hlatins, hsources⟩ := planned_takes characters terms
  rw [hspecs]
  constructor
  · intro spec hspec hkey rendering hr
    obtain ⟨c₁, hc, rfl⟩ := List.mem_map.mp hspec
    exact h.1 c₁ (hchars c₁ hc) ⟨hunnamed c₁ hc, hkey⟩ rendering hr
  · intro spec₁ hspec₁ spec₂ hspec₂ hkey₁ hkey₂
    obtain ⟨c₁, hc₁, rfl⟩ := List.mem_map.mp hspec₁
    obtain ⟨c₂, hc₂, rfl⟩ := List.mem_map.mp hspec₂
    by_cases hsame : c₁ = c₂
    · rw [hsame]
    · have hlatin : latinKey c₁ ≠ latinKey c₂ := fun he =>
        hsame (List.inj_on_of_nodup_map hlatins hc₁ hc₂ he)
      have hsource : sourceKey c₁ ≠ sourceKey c₂ := fun he =>
        hsame (List.inj_on_of_nodup_map hsources hc₁ hc₂ he)
      exact h.2 c₁ (hchars c₁ hc₁) c₂ (hchars c₂ hc₂) ⟨hunnamed c₁ hc₁, hkey₁⟩
        ⟨hunnamed c₂ hc₂, hkey₂⟩ hlatin hsource

theorem nameKey_of_planned (h : spec ∈ plannedNames down seriesId analysis s) :
    nameKey spec.sourceTerm = lower spec.sourceTerm := by
  obtain ⟨-, htrim, -⟩ := (planned_proper _ _).1 spec h
  rw [nameKey, htrim]

/-- Locking the names of an episode under the condition: nothing locked for the character is lost,
and it all agrees. -/
theorem lockNames_agree
    (hagree : NamesAgree c analysis.characters (termsRead down seriesId s)
      (lockedRenderings seriesId c s))
    (hone : ∀ r ∈ lockedRenderings seriesId c s, ∀ r' ∈ lockedRenderings seriesId c s, r = r') :
    (∀ r ∈ lockedRenderings seriesId c (lockNames down seriesId analysis s),
      ∀ r' ∈ lockedRenderings seriesId c (lockNames down seriesId analysis s), r = r') ∧
    lockedRenderings seriesId c s ⊆
      lockedRenderings seriesId c (lockNames down seriesId analysis s) := by
  obtain ⟨hstored, hplanned⟩ := planned_agree hagree
  constructor
  · have horigin : ∀ r ∈ lockedRenderings seriesId c (lockNames down seriesId analysis s),
        r ∈ lockedRenderings seriesId c s ∨ ∃ spec ∈ plannedNames down seriesId analysis s,
          lower spec.sourceTerm ∈ nameKeys c ∧ spec.vietnameseRendering = r := by
      intro r hr
      obtain ⟨p, hp, hnames, rfl⟩ := mem_lockedRenderings.mp hr
      obtain hp | ⟨spec, hspec, -, hsource, hrendering⟩ := mem_pinned_lockNames hp
      · exact Or.inl (mem_lockedRenderings.mpr ⟨p, hp, hnames, rfl⟩)
      · refine Or.inr ⟨spec, hspec, ?_, hrendering.symm⟩
        rw [← nameKey_of_planned hspec, ← hsource]
        exact hnames.2
    intro r hr r' hr'
    obtain hr | ⟨spec, hspec, hkey, rfl⟩ := horigin r hr
    · obtain hr' | ⟨spec', hspec', hkey', rfl⟩ := horigin r' hr'
      · exact hone r hr r' hr'
      · exact (hstored spec' hspec' hkey' r hr).symm
    · obtain hr' | ⟨spec', hspec', hkey', rfl⟩ := horigin r' hr'
      · exact hstored spec hspec hkey r' hr'
      · exact hplanned spec hspec spec' hspec' hkey hkey'
  · refine lockNames_related
      (R := fun a b => lockedRenderings seriesId c a ⊆ lockedRenderings seriesId c b)
      (fun _ => List.Subset.refl _) (fun _ _ _ h h' => List.Subset.trans h h')
      fun st _ x hx hsame r hr => ?_
    obtain ⟨p, hp, hnames, rfl⟩ := mem_lockedRenderings.mp hr
    obtain hp | ⟨row, hfound, hlocked, rfl, hp⟩ := pinned_lockName_of_mem hp
    · exact mem_lockedRenderings.mpr ⟨p, hp, hnames, rfl⟩
    · have hspec := fst_mem_of_mem_zipIdx hx
      have hrow : row ∈ findTermExact s seriesId x.1.sourceTerm := by simp [← hsame, hfound]
      obtain ⟨hm, -, hsource⟩ := mem_findTermExact.mp hrow
      have hold : row.vietnameseRendering ∈ lockedRenderings seriesId c s :=
        mem_lockedRenderings.mpr ⟨row.pinned, mem_pinnedTerms.mpr ⟨row, hm, hlocked, rfl⟩, hnames, rfl⟩
      have hkey : lower x.1.sourceTerm ∈ nameKeys c := by
        rw [← nameKey_of_planned hspec, ← hsource]
        exact hnames.2
      exact mem_lockedRenderings.mpr ⟨_, hp, hnames, hstored x.1 hspec hkey _ hold⟩

theorem lockedRenderings_of_pinned (h : pinnedTerms s' = pinnedTerms s) :
    lockedRenderings seriesId c s' = lockedRenderings seriesId c s := by
  rw [lockedRenderings, h, lockedRenderings]

/-- Only the locking of names pins a term. -/
theorem merge_pinned (down : MergeCall → Bool) (seriesId : ℕ) (analysis : BibleAnalysis)
    (episodeKey : Str) (settings : TrezarrSettings) (s : Store) :
    pinnedTerms (mergeBibleAnalysis down seriesId analysis episodeKey settings s).1 =
      if LocksNames down seriesId analysis episodeKey s then
        pinnedTerms (lockNames down seriesId analysis
          (termsMerged down seriesId analysis episodeKey s).store)
      else pinnedTerms s := by
  by_cases hl : LocksNames down seriesId analysis episodeKey s
  · rw [if_pos hl, pinnedTerms, merge_termDictionary settings hl]
    rfl
  · rw [if_neg hl]
    obtain ⟨-, h⟩ | ⟨hl', -⟩ := merge_cases (s := s) settings rfl
    · rcases h with h | h
      · rw [h]
        exact pinned_respected.charactersMerged
      · rw [h]
        exact pinned_respected.termsMerged
    · exact (hl hl').elim

theorem episode_agrees {m : EpisodeMerge} (h : EpisodeAgrees seriesId c s m)
    (hone : ∀ r ∈ lockedRenderings seriesId c s, ∀ r' ∈ lockedRenderings seriesId c s, r = r') :
    (∀ r ∈ lockedRenderings seriesId c (m.step seriesId s),
      ∀ r' ∈ lockedRenderings seriesId c (m.step seriesId s), r = r') ∧
    lockedRenderings seriesId c s ⊆ lockedRenderings seriesId c (m.step seriesId s) := by
  have hmerge := merge_pinned m.down seriesId m.analysis m.episodeKey m.settings s
  by_cases hl : LocksNames m.down seriesId m.analysis m.episodeKey s
  · rw [if_pos hl] at hmerge
    have hbase : lockedRenderings seriesId c
        (termsMerged m.down seriesId m.analysis m.episodeKey s).store =
          lockedRenderings seriesId c s :=
      lockedRenderings_of_pinned pinned_respected.termsMerged
    have hagree := h hl
    rw [← hbase] at hagree hone
    have hlocked := lockNames_agree hagree hone
    rw [hbase] at hlocked
    rw [EpisodeMerge.step, lockedRenderings_of_pinned hmerge]
    exact hlocked
  · rw [if_neg hl] at hmerge
    rw [EpisodeMerge.step, lockedRenderings_of_pinned hmerge]
    exact ⟨hone, List.Subset.refl _⟩

/-- Whatever is locked for the character at any time of the run is one rendering, when no episode
takes up a name of the character with another one. -/
theorem one_rendering_locked (seriesId : ℕ) (c : CharacterInference) (s : Store)
    (episodes : List EpisodeMerge)
    (hone : ∀ r ∈ lockedRenderings seriesId c s, ∀ r' ∈ lockedRenderings seriesId c s, r = r')
    (h : Along (EpisodeMerge.step seriesId) (EpisodeAgrees seriesId c) s episodes) :
    ∀ xs ys xs' ys', episodes = xs ++ ys → episodes = xs' ++ ys' →
      ∀ r ∈ lockedRenderings seriesId c (run (EpisodeMerge.step seriesId) s xs),
        ∀ r' ∈ lockedRenderings seriesId c (run (EpisodeMerge.step seriesId) s xs'), r = r' := by
  let One : Store → Prop := fun s =>
    ∀ r ∈ lockedRenderings seriesId c s, ∀ r' ∈ lockedRenderings seriesId c s, r = r'
  have hrun : ∀ s xs, One s → Along (EpisodeMerge.step seriesId) (EpisodeAgrees seriesId c) s xs →
      One (run (EpisodeMerge.step seriesId) s xs) ∧ lockedRenderings seriesId c s ⊆
        lockedRenderings seriesId c (run (EpisodeMerge.step seriesId) s xs) := by
    intro s xs hone h
    refine related_run (R := fun a b => One a → One b ∧
      lockedRenderings seriesId c a ⊆ lockedRenderings seriesId c b)
      (fun _ hone => ⟨hone, List.Subset.refl _⟩) (fun _ _ _ h h' hone => ?_)
      (fun _ _ hg hone => episode_agrees hg hone) h hone
    obtain ⟨hmid, hsub⟩ := h hone
    obtain ⟨hend, hsub'⟩ := h' hmid
    exact ⟨hend, List.Subset.trans hsub hsub'⟩
  have hkept : ∀ xs ys, episodes = xs ++ ys →
      lockedRenderings seriesId c (run (EpisodeMerge.step seriesId) s xs) ⊆
        lockedRenderings seriesId c (run (EpisodeMerge.step seriesId) s episodes) := by
    rintro xs ys rfl
    obtain ⟨hxs, hys⟩ := along_append.mp h
    rw [run_append]
    exact (hrun _ ys (hrun s xs hone hxs).1 hys).2
  intro xs ys xs' ys' he he' r hr r' hr'
  exact (hrun s episodes hone h).1 r (hkept xs ys he hr) r' (hkept xs' ys' he' hr')

def hanLi : CharacterInference where
  originalLatinName := "Han Li"
  originalScriptName := some "韩立"
  vietnameseRendering := some "Hàn Lập"

def episodeOf (c : CharacterInference) (episodeKey : Str) : EpisodeMerge where
  down _ := false
  analysis := { characters := [c] }
  episodeKey := episodeKey
  settings := {}

def hanSeries : Store where
  series := ⟨[{ id := 1 }], nodup_firstSeries⟩

theorem hanLi_one_rendering :
    "Hàn Lập".toList ∈ lockedRenderings 1 hanLi (run (EpisodeMerge.step 1) hanSeries
        [episodeOf hanLi "S01E01"]) ∧
      ∀ r ∈ lockedRenderings 1 hanLi (run (EpisodeMerge.step 1) hanSeries
        [episodeOf hanLi "S01E01", episodeOf { hanLi with originalScriptName := none } "S01E02"]),
        r = "Hàn Lập".toList := by
  have hlocked : "Hàn Lập".toList ∈ lockedRenderings 1 hanLi (run (EpisodeMerge.step 1) hanSeries
      [episodeOf hanLi "S01E01"]) := by
    decide +kernel
  refine ⟨hlocked, fun r hr => ?_⟩
  exact one_rendering_locked 1 hanLi hanSeries _ (by decide +kernel) (by decide +kernel)
    [episodeOf hanLi "S01E01", episodeOf { hanLi with originalScriptName := none } "S01E02"] []
    [episodeOf hanLi "S01E01"] _ rfl rfl r hr _ hlocked

/-- The second episode leaves out the script name and the reading. -/
theorem hanLi_locked_twice : ¬ ∀ r ∈ lockedRenderings 1 hanLi (run (EpisodeMerge.step 1) hanSeries
      [episodeOf hanLi "S01E01", episodeOf { originalLatinName := "Han Li" } "S01E02"]),
    ∀ r' ∈ lockedRenderings 1 hanLi (run (EpisodeMerge.step 1) hanSeries
      [episodeOf hanLi "S01E01", episodeOf { originalLatinName := "Han Li" } "S01E02"]), r = r' := by
  decide +kernel

end Trezarr
