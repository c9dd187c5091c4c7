import Trezarr.Translate.Episodes

/-! Terms once given to a pair, over the episodes that follow. -/
namespace Trezarr
open Text Rows BibleRow Fallible Runs

/-- A lock on either term holds both. -/
def PairLocked (s : Store) (series : ℕ) (pair : Pair) : Prop :=
  ∃ row, (pairRows s series pair).getLast? = some row ∧
    (.selfTerm ∈ row.lockedFields ∨ .addressTerm ∈ row.lockedFields)

/-- No event of the episode brings new terms for the pair, unless it is locked anyway. -/
def LeavesPair (series : ℕ) (pair : Pair) (s : Store) : BibleStep → Prop
  | .episode e => e.seriesId = series → PairLocked s series pair ∨
      ∀ event ∈ e.relationshipEvents, matchesPair pair e.episodeKey event →
        bothTerms event.suggestedSelfTerm event.suggestedAddressTerm = none
  | .edit op => SparesPair series pair s op

def ResolvesTo (series : ℕ) (pair : Pair) (terms : Terms) (s : Store) : BibleStep → Prop
  | .episode e => e.seriesId = series → ∀ m, (e.outcome s).2 = .ok m → m.get? pair = some terms
  | .edit _ => True

variable {s : Store} {series id : ℕ} {pair : Pair} {terms : Terms} {e : Episode}
  {b : SeriesBibleDTO} {row : AddressMap}

theorem last_row (h : (pairTerms s series pair).getLast? = some (id, some terms.1, some terms.2)) :
    ∃ row, (pairRows s series pair).getLast? = some row ∧ row.id = id ∧
      row.selfTerm = some terms.1 ∧ row.addressTerm = some terms.2 := by
  rw [pairTerms, List.getLast?_map, Option.map_eq_some_iff] at h
  obtain ⟨row, hr, he⟩ := h
  simp only [Prod.mk.injEq] at he
  exact ⟨row, hr, he⟩

theorem storedTerms_some (hs : row.selfTerm = some terms.1) (ha : row.addressTerm = some terms.2) :
    storedTerms (some row) = some terms := by
  obtain ⟨_, _, _, _, _, _, _, _⟩ := row
  cases hs
  cases ha
  rfl

theorem bothTerms_some (hs : terms.1 ≠ []) (ha : terms.2 ≠ []) :
    bothTerms (some terms.1) (some terms.2) = some terms :=
  if_pos ⟨hs, ha⟩

/-- Lock, transition, survivors and carry-forward all come to the stored terms. -/
theorem resolvePair_stored (hs : row.selfTerm = some terms.1) (ha : row.addressTerm = some terms.2)
    (hself : terms.1 ≠ []) (haddress : terms.2 ≠ [])
    (hrow : (existingMap b).get? pair = some row)
    (h : (.selfTerm ∈ row.lockedFields ∨ .addressTerm ∈ row.lockedFields) ∨
      ∀ event ∈ b.relationshipEvents, matchesPair pair e.episodeKey event →
        bothTerms event.suggestedSelfTerm event.suggestedAddressTerm = none) :
    (resolvePair e.flatAttributions b e.episodeKey e.settings pair).terms = terms := by
  have hst := storedTerms_some hs ha
  simp only [resolvePair, hrow]
  split
  · next t hl =>
    simp only [lockedTerms] at hl
    split at hl
    · exact Option.some_inj.mp (hl.symm.trans hst)
    · cases hl
  · next hl =>
    split
    · next event ht =>
      rcases h with h | h
      · simp [lockedTerms, h, hst] at hl
      · have hev : findTransitionForPair b.relationshipEvents pair e.episodeKey = some event := by
          unfold transitionFor at ht
          split at ht
          · exact ht
          · cases ht
        have hno := h event (List.mem_of_find?_eq_some hev)
          (by simpa using List.find?_some hev)
        simp [deriveTransitionTerms, hno, hs, ha, bothTerms_some hself haddress]
    · simp [hst]

theorem episode_resolves
    (hl : (pairTerms s series pair).getLast? = some (id, some terms.1, some terms.2))
    (hself : terms.1 ≠ []) (haddress : terms.2 ≠ []) (hb : e.bible s = .ok b)
    (hser : e.seriesId = series) (h : LeavesPair series pair s (.episode e)) :
    (resolvePair e.flatAttributions b e.episodeKey e.settings pair).terms = terms ∧
      pair ∈ allPairs e.flatAttributions b := by
  subst hser
  obtain ⟨row, hr, -, hs, ha⟩ := last_row hl
  have hrow := (existingMap_get? hb).trans hr
  refine ⟨resolvePair_stored hs ha hself haddress hrow ?_, ?_⟩
  · rcases h rfl with ⟨row', hr', hk⟩ | h
    · rw [hr] at hr'
      cases hr'
      exact Or.inl hk
    · obtain ⟨_, -, rfl⟩ := map_ok hb
      exact Or.inr h
  · rw [allPairs, List.mem_dedup, List.mem_append]
    exact Or.inr (Dict.mem_keys_iff.mpr ⟨row, hrow⟩)

theorem step_leaves {step : BibleStep}
    (hl : (pairTerms s series pair).getLast? = some (id, some terms.1, some terms.2))
    (hself : terms.1 ≠ []) (haddress : terms.2 ≠ []) (h : LeavesPair series pair s step) :
    pairTerms (step.step s) series pair = pairTerms s series pair ∧
      ResolvesTo series pair terms s step := by
  cases step with
  | edit op => exact ⟨edit_pairTerms h, trivial⟩
  | episode e =>
    simp only [BibleStep.step, ResolvesTo, Episode.outcome]
    split
    · exact ⟨rfl, nofun⟩
    · next b hb =>
      constructor
      · refine reconcile_pairTerms (fun w hw hq => ?_) fun a ha hq => ?_
        · obtain ⟨hser, rfl⟩ := Prod.mk.injEq .. ▸ hq
          have ht := (episode_resolves hl hself haddress hb hser h).1
          rw [(mem_resolvedWrites hw).2] at ht
          have ht : w.2.1 = terms := ht
          exact ⟨id, ht ▸ hl⟩
        · obtain ⟨hser, rfl⟩ := Prod.mk.injEq .. ▸ hq
          have hp := (episode_resolves hl hself haddress hb hser h).2
          exact (mem_reciprocalAdditions ha).1 (Dict.mem_keys_iff.mpr ⟨_, resolvedTerms_of_mem hp⟩)
      · intro hser m hm
        obtain ⟨ht, hp⟩ := episode_resolves hl hself haddress hb hser h
        rw [reconcile_get? hm hp, ht]

/-- A pair with terms keeps them, in its row and in every episode's map. -/
theorem established_terms_persist (s : Store) (steps : List BibleStep) (series id : ℕ) (pair : Pair)
    (terms : Terms)
    (hl : (pairTerms s series pair).getLast? = some (id, some terms.1, some terms.2))
    (hself : terms.1 ≠ []) (haddress : terms.2 ≠ [])
    (h : Along BibleStep.step (LeavesPair series pair) s steps) :
    pairTerms (run BibleStep.step s steps) series pair = pairTerms s series pair ∧
      Along BibleStep.step (ResolvesTo series pair terms) s steps := by
  have hstep : ∀ t step, pairTerms t series pair = pairTerms s series pair →
      LeavesPair series pair t step →
      pairTerms (step.step t) series pair = pairTerms s series pair := by
    intro t step ht hg
    exact (step_leaves (ht ▸ hl) hself haddress hg).1.trans ht
  refine ⟨invariant_run hstep rfl h, along_of_invariant hstep ?_ rfl h⟩
  intro t step ht hg
  exact (step_leaves (ht ▸ hl) hself haddress hg).2

/-- Two characters and the terms a curator gave the first for the second. -/
def siblingStore : Store where
  series := ⟨[{ id := 1 }], nodup_firstSeries⟩
  characters :=
    ⟨[{ id := 1, seriesId := 1, originalLatinName := "Anna", gender := some "female" },
      { id := 2, seriesId := 1, originalLatinName := "Ben", gender := some "male" }], by decide⟩
  addressMaps :=
    ⟨[{ id := 7, seriesId := 1, speakerCharacterId := 1, addresseeCharacterId := 2
        selfTerm := some "chị", addressTerm := some "em" }], by decide⟩

/-- An episode in which they fall out, without new terms, and no line is attributed surely. -/
def quarrel : Episode where
  seriesId := 1
  episodeKey := "S01E02"
  settings := {}
  order := ⟨fun xs => xs, fun _ => List.Perm.refl _⟩
  flatAttributions := [{ lineIndex := 1, speaker := some "Ben", addressee := some "Mr. Anna" }]
  relationshipEvents :=
    [{ id := 1, seriesId := 1, characterAId := 2, characterBId := 1, episodeMarker := "S01E02"
       suggestedSelfTerm := some "tao" }]

theorem siblings_keep_terms : pairTerms
    (run BibleStep.step siblingStore
      [.episode quarrel, .edit (.applyHumanEditCharacter 2 1 .gender (some "female") true),
       .episode quarrel]) 1 (1, 2) = [(7, some "chị".toList, some "em".toList)] := by
  have hq : ∀ s, LeavesPair 1 (1, 2) s (.episode quarrel) := by
    intro s _
    refine Or.inr fun event he _ => ?_
    rw [List.mem_singleton.mp he]
    rfl
  exact (established_terms_persist siblingStore
    [.episode quarrel, .edit (.applyHumanEditCharacter 2 1 .gender (some "female") true),
     .episode quarrel] 1 7 (1, 2) ("chị", "em") rfl (by decide) (by decide)
    ⟨hq _, trivial, hq _, trivial⟩).1

end Trezarr
