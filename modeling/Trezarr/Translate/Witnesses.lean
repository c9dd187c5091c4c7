import Trezarr.Translate.Episodes

/-! Pairs that no episode bears witness to: when their terms stay the safe default. -/
namespace Trezarr
open Text Rows BibleRow Fallible Runs

/-- No line of the episode attributes the pair surely in either direction, and no event names it. -/
structure Episode.Unwitnessed (e : Episode) (b : SeriesBibleDTO) (pair : Pair) : Prop where
  unsure : ∀ attr ∈ e.flatAttributions,
    attributedPair b attr = some pair ∨ attributedPair b attr = some pair.swap →
      confidenceValue attr.confidence < thresholdValue e.settings.pronounConfidenceThreshold
  uneventful : ∀ event ∈ e.relationshipEvents, ¬ matchesPair pair e.episodeKey event

def Unwitnessed (series : ℕ) (pair : Pair) (s : Store) : BibleStep → Prop
  | .episode e => e.seriesId = series → ∀ b, e.bible s = .ok b → e.Unwitnessed b pair
  | .edit op => SparesPair series pair s op

/-- The terms the other direction is read with: its stored ones, or its safe default. -/
def termsOfSwap (s : Store) (e : Episode) (b : SeriesBibleDTO) (pair : Pair) : Terms :=
  (storedTerms (pairRows s e.seriesId pair.swap).getLast?).getD
    (safeDefaultFor b e.settings pair.swap)

/-- The pair is attributed itself, or its reverse is neither attributed nor stored, or the terms
of the reverse have no kinship reciprocal. -/
def NotImplied (series : ℕ) (pair : Pair) (s : Store) : BibleStep → Prop
  | .episode e => e.seriesId = series → ∀ b, e.bible s = .ok b →
      (∃ attr ∈ e.flatAttributions, attributedPair b attr = some pair) ∨
      ((∀ attr ∈ e.flatAttributions, attributedPair b attr ≠ some pair.swap) ∧
        pairRows s series pair.swap = []) ∨
      kinshipReciprocal (termsOfSwap s e b pair) = none
  | .edit _ => True

/-- The pair has no row after the step, and the episode reads it as the safe default. -/
def StaysDefault (series : ℕ) (pair : Pair) (s : Store) (step : BibleStep) : Prop :=
  pairRows (step.step s) series pair = [] ∧
    match step with
    | .episode e => e.seriesId = series → ∀ b m terms, e.bible s = .ok b →
        (e.outcome s).2 = .ok m → m.get? pair = some terms →
          terms = safeDefaultFor b e.settings pair
    | .edit _ => True

variable {s : Store} {pair : Pair} {e : Episode} {b : SeriesBibleDTO}

theorem mem_allPairs (h : e.bible s = .ok b) : pair ∈ allPairs e.flatAttributions b ↔
    (∃ attr ∈ e.flatAttributions, attributedPair b attr = some pair) ∨
      pairRows s e.seriesId pair ≠ [] := by
  have hk : pair ∈ (existingMap b).keys ↔ pairRows s e.seriesId pair ≠ [] := by
    rw [Dict.mem_keys_iff, existingMap_get? h, ← Option.isSome_iff_exists, List.getLast?_isSome]
  simp [allPairs, hk]

theorem bible_events (h : e.bible s = .ok b) : b.relationshipEvents = e.relationshipEvents := by
  obtain ⟨_, -, rfl⟩ := map_ok h
  rfl

theorem matchesPair_swap {key : Str} {event : RelationshipEventDTO} :
    matchesPair pair.swap key event = matchesPair pair key event := by
  simp only [matchesPair, Prod.fst_swap, Prod.snd_swap]
  rw [Bool.or_comm]

theorem Episode.Unwitnessed.swap (h : e.Unwitnessed b pair) : e.Unwitnessed b pair.swap where
  unsure attr hm ho := h.unsure attr hm (by rw [Prod.swap_swap] at ho; exact ho.symm)
  uneventful event hm := by rw [matchesPair_swap]; exact h.uneventful event hm

theorem survivorsOf_eq_nil (h : e.Unwitnessed b pair) :
    survivorsOf e.flatAttributions b e.settings pair = [] := by
  simp only [survivorsOf, attributionsOf, List.filter_filter, List.filter_eq_nil_iff,
    Bool.and_eq_true, decide_eq_true_eq]
  rintro attr hm ⟨hc, hp⟩
  exact absurd (h.unsure attr hm (Or.inl hp)) (by omega)

theorem transitionFor_eq_none (hb : e.bible s = .ok b) (h : e.Unwitnessed b pair) :
    transitionFor b e.episodeKey e.settings pair = none := by
  unfold transitionFor
  split
  · rw [findTransitionForPair, bible_events hb, List.find?_eq_none]
    exact h.uneventful
  · rfl

/-- Without a witness the stored terms are carried, and nothing is written. -/
theorem resolvePair_unwitnessed (hb : e.bible s = .ok b) (h : e.Unwitnessed b pair) :
    resolvePair e.flatAttributions b e.episodeKey e.settings pair =
      ⟨(storedTerms (pairRows s e.seriesId pair).getLast?).getD
        (safeDefaultFor b e.settings pair), none⟩ := by
  simp only [resolvePair, existingMap_get? hb, survivorsOf_eq_nil h, transitionFor_eq_none hb h]
  cases (pairRows s e.seriesId pair).getLast? with
  | none => rfl
  | some row =>
    simp only [lockedTerms]
    split
    · next t ht =>
      split at ht
      · rw [ht]
        rfl
      · cases ht
    · rfl

theorem not_reciprocal (hb : e.bible s = .ok b) (h : e.Unwitnessed b pair)
    (hn : NotImplied e.seriesId pair s (.episode e)) {terms : Terms} :
    (pair, terms) ∉ reciprocalAdditions
      (resolvedTerms e.order e.flatAttributions b e.episodeKey e.settings) := by
  intro ha
  obtain ⟨hk, t, ht, hr⟩ := mem_reciprocalAdditions ha
  rw [Dict.mem_keys_iff, not_exists] at hk
  dsimp only at hk ht hr
  rw [resolvedTerms_get?] at ht
  split at ht
  · next hs =>
    rw [Option.some_inj, resolvePair_unwitnessed hb h.swap] at ht
    have ht : termsOfSwap s e b pair = t := ht
    rcases hn rfl b hb with hp | ⟨hnone, hempty⟩ | hrecip
    · exact hk _ (resolvedTerms_of_mem ((mem_allPairs hb).mpr (Or.inl hp)))
    · rcases (mem_allPairs hb).mp hs with ⟨attr, hm, he⟩ | hne
      · exact hnone attr hm he
      · exact hne hempty
    · rw [ht, hr] at hrecip
      cases hrecip
  · cases ht

theorem step_staysDefault {series : ℕ} {step : BibleStep} (hrows : pairRows s series pair = [])
    (hu : Unwitnessed series pair s step) (hn : NotImplied series pair s step) :
    StaysDefault series pair s step := by
  have hnil := pairTerms_eq_nil.mpr hrows
  cases step with
  | edit op => exact ⟨pairTerms_eq_nil.mp ((edit_pairTerms hu).trans hnil), trivial⟩
  | episode e =>
    constructor
    · rw [← pairTerms_eq_nil, ← hnil]
      simp only [BibleStep.step, Episode.outcome]
      split
      · rfl
      · next b hb =>
        refine reconcile_pairTerms (fun w hw hq => ?_) fun a ha hq => ?_
        · obtain ⟨rfl, rfl⟩ := Prod.mk.injEq .. ▸ hq
          have hwrite := (mem_resolvedWrites hw).2
          rw [resolvePair_unwitnessed hb (hu rfl b hb)] at hwrite
          cases congrArg Resolution.write hwrite
        · obtain ⟨rfl, rfl⟩ := Prod.mk.injEq .. ▸ hq
          exact not_reciprocal hb (hu rfl b hb) hn ha
    · rintro rfl b m terms hb hm hget
      have he := hu rfl b hb
      simp only [Episode.outcome, hb] at hm
      rcases resolved_or_reciprocal hm hget with ⟨-, rfl⟩ | ha
      · rw [resolvePair_unwitnessed hb he, hrows]
        rfl
      · exact (not_reciprocal hb he hn ha).elim

/-- A pair nobody bears witness to stays at the safe default while nothing implies it. -/
theorem unwitnessed_stays_default (s : Store) (steps : List BibleStep) (series : ℕ) (pair : Pair)
    (hrows : pairRows s series pair = [])
    (hu : Along BibleStep.step (Unwitnessed series pair) s steps)
    (hn : Along BibleStep.step (NotImplied series pair) s steps) :
    Along BibleStep.step (StaysDefault series pair) s steps := by
  have hstep : ∀ t step, pairRows t series pair = [] →
      Unwitnessed series pair t step ∧ NotImplied series pair t step →
        StaysDefault series pair t step :=
    fun t step ht hg => step_staysDefault ht hg.1 hg.2
  exact along_of_invariant (I := fun t => pairRows t series pair = [])
    (fun t step ht hg => (hstep t step ht hg).1) hstep hrows (along_and.mpr ⟨hu, hn⟩)

theorem nodup_strangers : (([{ id := 1, seriesId := 1, originalLatinName := "Anna" },
    { id := 2, seriesId := 1, originalLatinName := "Ben" }] : List Character).map Keyed.id).Nodup := by
  decide

def strangersStore : Store where
  series := ⟨[{ id := 1 }], nodup_firstSeries⟩
  characters :=
    ⟨[{ id := 1, seriesId := 1, originalLatinName := "Anna" },
      { id := 2, seriesId := 1, originalLatinName := "Ben" }], nodup_strangers⟩

/-- An episode with one unsure line, under the default settings. -/
def unsureLine (speaker addressee : Str) : Episode where
  seriesId := 1
  episodeKey := "S01E01"
  settings := {}
  order := ⟨fun xs => xs, fun _ => List.Perm.refl _⟩
  flatAttributions := [{ lineIndex := 1, speaker := some speaker, addressee := some addressee }]
  relationshipEvents := []

theorem unsureLine_unwitnessed (speaker addressee : Str) (s : Store) :
    Unwitnessed 1 (1, 2) s (.episode (unsureLine speaker addressee)) := by
  intro _ b _
  refine ⟨fun attr hm _ => ?_, nofun⟩
  rw [List.mem_singleton.mp hm]
  exact (by decide : (1 : ℕ) < thresholdValue "medium".toList)

theorem anna_stays_default : StaysDefault 1 (1, 2) strangersStore
    (.episode (unsureLine "Anna" "Ben")) :=
  (unwitnessed_stays_default strangersStore [.episode (unsureLine "Anna" "Ben")] 1 (1, 2) rfl
    ⟨unsureLine_unwitnessed _ _ _, trivial⟩
    ⟨by
      intro _ b hb
      cases hb
      exact Or.inl (by decide), trivial⟩).1

/-- The unsure line is Ben's to Anna, and Anna is given a row for Ben all the same. -/
theorem anna_given_row : pairRows strangersStore 1 (1, 2) = [] ∧
    Along BibleStep.step (Unwitnessed 1 (1, 2)) strangersStore
      [.episode (unsureLine "Ben" "Anna")] ∧
    ¬ Along BibleStep.step (StaysDefault 1 (1, 2)) strangersStore
      [.episode (unsureLine "Ben" "Anna")] ∧
    pairTerms (BibleStep.step strangersStore (.episode (unsureLine "Ben" "Anna"))) 1 (1, 2) =
      [(1, some "bạn".toList, some "tôi".toList)] := by
  have hrow : pairTerms (BibleStep.step strangersStore (.episode (unsureLine "Ben" "Anna"))) 1
      (1, 2) = [(1, some "bạn".toList, some "tôi".toList)] := by decide
  refine ⟨rfl, ⟨unsureLine_unwitnessed _ _ _, trivial⟩, fun h => ?_, hrow⟩
  rw [pairTerms, h.1.1] at hrow
  cases hrow

end Trezarr
