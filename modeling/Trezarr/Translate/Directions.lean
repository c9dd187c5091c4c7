import Trezarr.Translate.Suggestions

/-! Which way an event's suggested terms point, and which way they are used. -/
namespace Trezarr
open Text Fallible

section Ladder

variable (flat : List LineAttribution) (bible : SeriesBibleDTO) (episodeKey : Str)
  (settings : TrezarrSettings)

/-- Both terms of the event that counts for a pair, whichever way it names the two. -/
def suggestionFor (pair : Pair) : Option Terms :=
  (transitionFor bible episodeKey settings pair).bind fun event =>
    bothTerms event.suggestedSelfTerm event.suggestedAddressTerm

/-- What a pair keeps. With an event empty terms are not kept. -/
def carriedTerms (pair : Pair) : Option Terms :=
  let existing := (existingMap bible).get? pair
  match transitionFor bible episodeKey settings pair with
  | some _ => existing.bind fun row => bothTerms row.selfTerm row.addressTerm
  | none => storedTerms existing

/-- Lock, suggestion, carried terms, safe default: the first there is. -/
def ladderTerms (pair : Pair) : Terms :=
  (lockedTerms ((existingMap bible).get? pair)).getD
    ((suggestionFor bible episodeKey settings pair).getD
      ((carriedTerms bible episodeKey settings pair).getD (safeDefaultFor bible settings pair)))

/-- Something of every suggestion of the episode: of the reverse of the pair that it is for, and
of its terms. -/
def ForSuggestions (p : Pair → Terms → Prop) : Prop :=
  ∀ event ∈ bible.relationshipEvents, event.episodeMarker = episodeKey →
    ∀ terms : Terms, event.suggestedSelfTerm = some terms.1 →
      event.suggestedAddressTerm = some terms.2 →
        p (event.characterBId, event.characterAId) terms

/-- No suggestion is given to the reverse of its pair, unless it has those terms already. -/
def Directional (resolved : Dict Pair Terms) : Prop :=
  ForSuggestions bible episodeKey fun reverse terms =>
    resolved.get? reverse = some terms →
      storedTerms ((existingMap bible).get? reverse) = some terms

/-- No step of the ladder leads a pair to the terms. -/
structure KeptApart (pair : Pair) (terms : Terms) : Prop where
  suggestion : pair ∈ allPairs flat bible → lockedTerms ((existingMap bible).get? pair) = none →
    suggestionFor bible episodeKey settings pair ≠ some terms
  default : pair ∈ allPairs flat bible → lockedTerms ((existingMap bible).get? pair) = none →
    suggestionFor bible episodeKey settings pair = none →
      carriedTerms bible episodeKey settings pair = none →
        safeDefaultFor bible settings pair ≠ terms
  reciprocal : pair ∉ allPairs flat bible → pair.swap ∈ allPairs flat bible →
    kinshipReciprocal (ladderTerms bible episodeKey settings pair.swap) ≠ some terms

end Ladder

variable {flat : List LineAttribution} {bible : SeriesBibleDTO} {episodeKey : Str}
  {settings : TrezarrSettings} {pair : Pair} {terms : Terms}

theorem deriveTransitionTerms_eq {transition : RelationshipEventDTO} {existing : Option AddressMap}
    {gender register : Option Str} :
    deriveTransitionTerms transition existing gender settings register =
      (bothTerms transition.suggestedSelfTerm transition.suggestedAddressTerm).getD
        ((existing.bind fun row => bothTerms row.selfTerm row.addressTerm).getD
          (getSafeDefault gender settings register)) := by
  unfold deriveTransitionTerms
  cases bothTerms transition.suggestedSelfTerm transition.suggestedAddressTerm with
  | some terms => rfl
  | none => cases existing.bind fun row => bothTerms row.selfTerm row.addressTerm <;> rfl

theorem resolvePair_terms :
    (resolvePair flat bible episodeKey settings pair).terms =
      ladderTerms bible episodeKey settings pair := by
  dsimp only [resolvePair, ladderTerms, suggestionFor, carriedTerms]
  cases lockedTerms ((existingMap bible).get? pair) with
  | some locked => rfl
  | none =>
    cases transitionFor bible episodeKey settings pair with
    | some event => exact deriveTransitionTerms_eq
    | none => rfl

theorem storedTerms_of_bothTerms {row : AddressMap}
    (h : bothTerms row.selfTerm row.addressTerm = some terms) :
    storedTerms (some row) = some terms := by
  obtain ⟨id, seriesId, spk, addr, self, address, validFrom, locked⟩ := row
  cases self with
  | none => cases h
  | some self =>
    cases address with
    | none => cases h
    | some address =>
      dsimp only [bothTerms] at h
      split at h
      · exact h
      · cases h

theorem storedTerms_of_locked {existing : Option AddressMap}
    (h : lockedTerms existing = some terms) : storedTerms existing = some terms := by
  cases existing with
  | none => cases h
  | some row =>
    dsimp only [lockedTerms] at h
    split at h
    · exact h
    · cases h

theorem storedTerms_of_carried (h : carriedTerms bible episodeKey settings pair = some terms) :
    storedTerms ((existingMap bible).get? pair) = some terms := by
  unfold carriedTerms at h
  cases ht : transitionFor bible episodeKey settings pair with
  | none =>
    rw [ht] at h
    exact h
  | some event =>
    rw [ht] at h
    obtain ⟨row, hrow, hboth⟩ := Option.bind_eq_some_iff.mp h
    rw [hrow]
    exact storedTerms_of_bothTerms hboth

/-- A pair comes to terms that it does not have by a suggestion or by the safe default. -/
theorem ladderTerms_eq_iff (hnew : storedTerms ((existingMap bible).get? pair) ≠ some terms) :
    ladderTerms bible episodeKey settings pair = terms ↔
      lockedTerms ((existingMap bible).get? pair) = none ∧
        (suggestionFor bible episodeKey settings pair = some terms ∨
          suggestionFor bible episodeKey settings pair = none ∧
            carriedTerms bible episodeKey settings pair = none ∧
              safeDefaultFor bible settings pair = terms) := by
  unfold ladderTerms
  cases hl : lockedTerms ((existingMap bible).get? pair) with
  | some locked =>
    have hne : locked ≠ terms := by
      rintro rfl
      exact hnew (storedTerms_of_locked hl)
    simp [hne]
  | none =>
    cases suggestionFor bible episodeKey settings pair with
    | some suggested => simp
    | none =>
      cases hc : carriedTerms bible episodeKey settings pair with
      | some carried =>
        have hne : carried ≠ terms := by
          rintro rfl
          exact hnew (storedTerms_of_carried hc)
        simp [hne]
      | none => simp

variable {order : SetOrder} {s : Store} {seriesId : ℕ} {resolved : Dict Pair Terms}

theorem keptApart_iff
    (h : (reconcileAttributions order flat bible episodeKey settings s seriesId).2 = .ok resolved)
    (hnew : storedTerms ((existingMap bible).get? pair) ≠ some terms) :
    resolved.get? pair ≠ some terms ↔ KeptApart flat bible episodeKey settings pair terms := by
  have hget : resolved.get? pair = some terms ↔ _ := reconcile_get?_iff h
  rw [resolvePair_terms, resolvePair_terms, ladderTerms_eq_iff hnew] at hget
  constructor
  · intro hne
    constructor
    · intro hp hl hs
      exact hne (hget.mpr (Or.inl ⟨hp, hl, Or.inl hs⟩))
    · intro hp hl hs hc hd
      exact hne (hget.mpr (Or.inl ⟨hp, hl, Or.inr ⟨hs, hc, hd⟩⟩))
    · intro hp hswap hkin
      exact hne (hget.mpr (Or.inr ⟨hp, hswap, hkin⟩))
  · intro hkept hm
    rcases hget.mp hm with ⟨hp, hl, hs | ⟨hs, hc, hd⟩⟩ | ⟨hp, hswap, hkin⟩
    · exact hkept.suggestion hp hl hs
    · exact hkept.default hp hl hs hc hd
    · exact hkept.reciprocal hp hswap hkin

/-- The event counts both ways and its terms go with it: they keep their direction only where no
step of the ladder brings the reverse pair to them. -/
theorem directional_iff (order : SetOrder) (flat : List LineAttribution) (bible : SeriesBibleDTO)
    (episodeKey : Str) (settings : TrezarrSettings) (s : Store) (seriesId : ℕ)
    (resolved : Dict Pair Terms)
    (h : (reconcileAttributions order flat bible episodeKey settings s seriesId).2 =
      .ok resolved) :
    Directional bible episodeKey resolved ↔
      ForSuggestions bible episodeKey fun reverse terms =>
        storedTerms ((existingMap bible).get? reverse) ≠ some terms →
          KeptApart flat bible episodeKey settings reverse terms := by
  constructor
  · intro hd event he hmarker terms hself haddress hnew
    apply (keptApart_iff h hnew).mp
    intro hm
    exact hnew (hd event he hmarker terms hself haddress hm)
  · intro hd event he hmarker terms hself haddress hm
    by_contra hnew
    exact (keptApart_iff h hnew).mpr (hd event he hmarker terms hself haddress hnew) hm

/-- Han and Mei, how one of them speaks to the other, and an event that has Han call Mei his younger
sister. -/
def oathBible (speaker addressee : ℕ) (self address : Str) : SeriesBibleDTO where
  id := 1
  characters :=
    [{ id := 1, seriesId := 1, originalLatinName := "Han" },
      { id := 2, seriesId := 1, originalLatinName := "Mei" }]
  addressMap :=
    [{ id := 1, seriesId := 1, speakerCharacterId := speaker, addresseeCharacterId := addressee
       selfTerm := some self, addressTerm := some address }]
  relationshipEvents :=
    [{ id := 1, seriesId := 1, characterAId := 1, characterBId := 2, episodeMarker := "S01E02"
       suggestedSelfTerm := some "huynh", suggestedAddressTerm := some "muội" }]

/-- Han calls Mei his younger sister, and nothing is said of how she speaks to him. -/
theorem oath_directional : ∃ resolved,
    (reconcileAttributions asListed [] (oathBible 1 2 "ta" "nàng") "S01E02" {} swornStore 1).2 =
        .ok resolved ∧
      resolved.get? (1, 2) = some ("huynh".toList, "muội".toList) ∧
        Directional (oathBible 1 2 "ta" "nàng") "S01E02" resolved := by
  have hrun : (reconcileAttributions asListed [] (oathBible 1 2 "ta" "nàng") "S01E02" {} swornStore
      1).2.map (·.get? (1, 2)) = .ok (some ("huynh".toList, "muội".toList)) := by
    decide
  obtain ⟨resolved, hok, hget⟩ := map_ok hrun
  refine ⟨resolved, hok, hget, ?_⟩
  apply (directional_iff asListed [] (oathBible 1 2 "ta" "nàng") "S01E02" {} swornStore 1 resolved
    hok).mpr
  intro event he _ terms hself haddress _
  cases List.mem_singleton.mp he
  obtain ⟨self, address⟩ := terms
  cases hself
  cases haddress
  exact ⟨by decide, by decide, by decide⟩

/-- Mei, who is the younger sister, is to call Han hers. -/
theorem oath_reversed : ∃ resolved,
    (reconcileAttributions asListed [] (oathBible 2 1 "muội" "huynh") "S01E02" {} swornStore 1).2 =
        .ok resolved ∧
      resolved.get? (2, 1) = some ("huynh".toList, "muội".toList) ∧
        ¬ Directional (oathBible 2 1 "muội" "huynh") "S01E02" resolved := by
  have hrun : (reconcileAttributions asListed [] (oathBible 2 1 "muội" "huynh") "S01E02" {}
      swornStore 1).2.map (·.get? (2, 1)) = .ok (some ("huynh".toList, "muội".toList)) := by
    decide
  obtain ⟨resolved, hok, hget⟩ := map_ok hrun
  refine ⟨resolved, hok, hget, ?_⟩
  intro hd
  have hown := hd _ (List.mem_singleton_self _) rfl ("huynh".toList, "muội".toList) rfl rfl hget
  revert hown
  decide

end Trezarr
