import Trezarr.Translate.RecordedEvents
import Trezarr.Translate.Witnesses

/-! What becomes of the terms that Pass 1 suggests for a relationship that has changed. -/
namespace Trezarr
open Text Rows BibleRow Fallible Runs

section Writes

variable {s s' : Store} {series spk addr : ℕ} {self address validFrom key : Option Str}
  {source episodeKey : Str} {r : AddressMap} {events : List BibleEvent} {pair : Pair} {terms : Terms}
  {writes : List PairWrite}

/-- No row of the pair is locked. -/
def PairOpen (s : Store) (series : ℕ) (pair : Pair) : Prop :=
  ∀ row ∈ pairRows s series pair, .selfTerm ∉ row.lockedFields ∧ .addressTerm ∉ row.lockedFields

theorem upsertAddressPair_pairRows
    (h : upsertAddressPairInSession s series spk addr self address validFrom key source =
      .ok (r, events, s')) : pairRows s' series (spk, addr) = [r] := by
  obtain ⟨hnone, h⟩ | ⟨found, mid, hfound, hf, rfl⟩ := upsertAddressPair_cases h
  · obtain ⟨mid, ha, hw⟩ := createRow_ok h
    obtain ⟨hr, hs⟩ := addRow_ok ha
    have hmaps : s'.addressMaps = mid.addressMaps := hw.table_eq
    have hrows : s'.addressMaps.rows = s.addressMaps.rows ++ [r] := by
      rw [hmaps, hs, hr]
      rfl
    have hpair : r.seriesId = series ∧ r.speakerCharacterId = spk ∧ r.addresseeCharacterId = addr := by
      rw [hr]
      exact ⟨rfl, rfl, rfl⟩
    have hold : s.addressMaps.rows.filter (fun row => decide (row.seriesId = series ∧
        row.speakerCharacterId = spk ∧ row.addresseeCharacterId = addr)) = [] := hnone
    rw [pairRows, findAddressPair, Table.select, hrows, List.filter_append, hold,
      List.filter_singleton, decide_eq_true hpair]
    rfl
  · have hw := applyPairFields_wrote (p := fun _ => True) (by simp [mergeableFields])
      (fun _ _ _ _ _ _ => trivial) hf
    have hmaps : (storeRow mid r).addressMaps = s.addressMaps.put r := by
      have hmid : mid.addressMaps = s.addressMaps := hw.table_eq
      rw [← hmid]
      rfl
    have hm : found ∈ pairRows s series (spk, addr) := by simp [pairRows, hfound]
    have hident := hw.ident_eq.trans (mem_pairRows.mp hm).2
    rw [pairRows, findAddressPair, hmaps]
    exact Table.select_put_single hfound hw.id_eq.symm (decide_eq_true (ident_iff.mp hident))

theorem upsertAddressPair_locks
    (h : upsertAddressPairInSession s series spk addr self address validFrom key source =
      .ok (r, events, s')) :
    r.lockedFields = [] ∨ ∃ row ∈ pairRows s series (spk, addr), r.lockedFields = row.lockedFields := by
  obtain ⟨-, h⟩ | ⟨found, mid, hfound, hf, -⟩ := upsertAddressPair_cases h
  · obtain ⟨mid, ha, -⟩ := createRow_ok h
    obtain ⟨rfl, -⟩ := addRow_ok ha
    exact Or.inl rfl
  · have hw := applyPairFields_wrote (p := fun _ => True) (by simp [mergeableFields])
      (fun _ _ _ _ _ _ => trivial) hf
    exact Or.inr ⟨found, by simp [pairRows, hfound], hw.locked_eq⟩

theorem pairOpen_upsert {series' : ℕ} (hopen : PairOpen s series pair)
    (h : upsertAddressPairInSession s series' spk addr self address validFrom key source =
      .ok (r, events, s')) : PairOpen s' series pair := by
  obtain ⟨hident, hnew, -⟩ := upsertAddressPair_rows h
  intro row hrow
  obtain ⟨hm, hi⟩ := mem_pairRows.mp hrow
  rcases hnew row hm with rfl | hm
  · obtain ⟨rfl, rfl⟩ := Prod.ext_iff.mp (hident.symm.trans hi)
    rcases upsertAddressPair_locks h with hl | ⟨old, hold, hl⟩
    · rw [hl]
      exact ⟨List.not_mem_nil, List.not_mem_nil⟩
    · rw [hl]
      exact hopen old hold
  · exact hopen row (mem_pairRows.mpr ⟨hm, hi⟩)

theorem pairOpen_of_eq (h : s'.addressMaps = s.addressMaps) (hopen : PairOpen s series pair) :
    PairOpen s' series pair := by
  intro row hrow
  obtain ⟨hm, hi⟩ := mem_pairRows.mp hrow
  exact hopen row (mem_pairRows.mpr ⟨h ▸ hm, hi⟩)

/-- A merge locks no pair. -/
theorem pairOpen_respected : Respected fun s s' => PairOpen s series pair → PairOpen s' series pair where
  refl _ h := h
  trans _ _ _ h h' hopen := h' (h hopen)
  register h := pairOpen_of_eq (mergeInferred_series_frame h)
  character h := pairOpen_of_eq (upsertCharacter_frame h)
  term h := pairOpen_of_eq (upsertTerm_frame h)
  pair h hopen := pairOpen_upsert hopen h
  event _ _ := pairOpen_of_eq rfl

/-- Of writes to different pairs, the one to an open pair leaves its terms there. -/
theorem upsertPairs_written {u : Unit} (hd : (writes.map Prod.fst).Nodup)
    (hm : (pair, terms, validFrom) ∈ writes) (hopen : PairOpen s series pair)
    (h : upsertPairs series episodeKey s writes = (s', .ok u)) :
    ∃ id, pairTerms s' series pair = [(id, some terms.1, some terms.2)] := by
  induction writes generalizing s with
  | nil => cases hm
  | cons w writes ih =>
    obtain ⟨p, t, v⟩ := w
    rw [List.map_cons, List.nodup_cons] at hd
    obtain ⟨hfresh, hd⟩ := hd
    unfold upsertPairs at h
    cases hu : upsertAddressPairInSession s series p.1 p.2 (some t.1) (some t.2) v (some episodeKey)
      "inference" with
    | error err =>
      rw [hu] at h
      cases h
    | ok out =>
      obtain ⟨r, events, s₁⟩ := out
      rw [hu] at h
      have hafter : (upsertPairs series episodeKey s₁ writes).1 = s' := congrArg Prod.fst h
      rcases List.mem_cons.mp hm with he | hm
      · cases he
        have hrows := upsertAddressPair_pairRows hu
        have hr : r ∈ pairRows s₁ series pair := by simp [hrows]
        obtain ⟨hself, haddress⟩ := upsertAddressPair_given hu
        obtain ⟨hs, ha⟩ := pairOpen_upsert hopen hu r hr
        have hrest : pairTerms s' series pair = pairTerms s₁ series pair := by
          rw [← hafter]
          refine upsertPairs_pairTerms fun w hw hq => ?_
          exact (hfresh (List.mem_map.mpr ⟨w, hw, (Prod.ext_iff.mp hq).2⟩)).elim
        refine ⟨r.id, ?_⟩
        rw [hrest, pairTerms, hrows, List.map_singleton, hself hs, haddress ha]
      · exact ih hd hm (pairOpen_upsert hopen hu) h

end Writes

section Keys

variable {order : SetOrder} {flat : List LineAttribution} {bible : SeriesBibleDTO}
  {episodeKey : Str} {settings : TrezarrSettings}

theorem resolvedWrites_keys :
    ((resolvedWrites order flat bible episodeKey settings).map Prod.fst).Nodup := by
  have hpairs : ((resolutions order flat bible episodeKey settings).map Prod.fst).Nodup := by
    rw [resolutions, List.map_map]
    have hperm := order.perm (allPairs flat bible)
    have hdistinct : (order.order (allPairs flat bible)).Nodup :=
      hperm.nodup_iff.mpr (List.nodup_dedup _)
    simpa [Function.comp_def] using hdistinct
  refine (map_filterMap_sublist (fun r w hw => ?_) _).nodup hpairs
  obtain ⟨v, -, rfl⟩ := Option.map_eq_some_iff.mp hw
  rfl

theorem reciprocalAdditions_keys (m : Dict Pair Terms) :
    ((reciprocalAdditions m).map Prod.fst).Nodup := by
  have hswapped : (m.entries.map fun e => e.1.swap).Nodup := by
    have hkeys := m.nodup.map Prod.swap_injective
    rwa [List.map_map] at hkeys
  refine (map_filterMap_sublist (fun e a ha => ?_) _).nodup hswapped
  obtain ⟨q, terms⟩ := e
  dsimp only at ha
  split at ha
  · cases ha
  · split at ha
    · cases ha
    · cases ha
      rfl

/-- A reciprocal is added to a pair that is not resolved, where the pair it reverses is. -/
theorem mem_reciprocalAdditions_iff {pair : Pair} {terms : Terms} :
    (pair, terms) ∈ reciprocalAdditions (resolvedTerms order flat bible episodeKey settings) ↔
      pair ∉ allPairs flat bible ∧ pair.swap ∈ allPairs flat bible ∧
        kinshipReciprocal (resolvePair flat bible episodeKey settings pair.swap).terms =
          some terms := by
  constructor
  · intro ha
    obtain ⟨hnew, t, ht, hkin⟩ := mem_reciprocalAdditions ha
    rw [resolvedTerms_get?] at ht
    split at ht
    · next hswap =>
      cases ht
      refine ⟨fun hp => hnew ?_, hswap, hkin⟩
      exact Dict.mem_keys_iff.mpr ⟨_, resolvedTerms_of_mem hp⟩
    · cases ht
  · rintro ⟨hp, hswap, hkin⟩
    have hnew : pair ∉ (resolvedTerms order flat bible episodeKey settings).keys := by
      rw [Dict.mem_keys_iff]
      rintro ⟨t, ht⟩
      rw [resolvedTerms_get?, if_neg hp] at ht
      cases ht
    refine List.mem_filterMap.mpr
      ⟨(pair.swap, _), Dict.mem_entries_iff.mpr (resolvedTerms_of_mem hswap), ?_⟩
    dsimp only
    rw [hkin, Prod.swap_swap]
    exact if_neg hnew

/-- No later reciprocal replaces the one that is added to a pair. -/
theorem reconcile_get?_added {pair : Pair} {terms : Terms} {s : Store} {seriesId : ℕ}
    {m : Dict Pair Terms}
    (h : (reconcileAttributions order flat bible episodeKey settings s seriesId).2 = .ok m)
    (ha : (pair, terms) ∈
      reciprocalAdditions (resolvedTerms order flat bible episodeKey settings)) :
    m.get? pair = some terms := by
  have hmem : (pair, terms) ∈ (reciprocalAdditions
      (resolvedTerms order flat bible episodeKey settings)).filter (·.1 = pair) :=
    List.mem_filter.mpr ⟨ha, by simp⟩
  obtain ⟨last, hlast⟩ := Option.isSome_iff_exists.mp
    (List.getLast?_isSome.mpr (List.ne_nil_of_mem hmem))
  obtain ⟨hl, hkey⟩ := List.mem_filter.mp (List.mem_of_getLast? hlast)
  have hsame : last = (pair, terms) :=
    List.inj_on_of_nodup_map (reciprocalAdditions_keys _) hl ha (of_decide_eq_true hkey)
  rw [reconcile_ok h, Dict.get?_foldl_set, hlast, hsame]
  rfl

/-- What a pair has in the map: its resolution, or the reciprocal of its reverse. -/
theorem reconcile_get?_iff {pair : Pair} {terms : Terms} {s : Store} {seriesId : ℕ}
    {m : Dict Pair Terms}
    (h : (reconcileAttributions order flat bible episodeKey settings s seriesId).2 = .ok m) :
    m.get? pair = some terms ↔
      pair ∈ allPairs flat bible ∧
          (resolvePair flat bible episodeKey settings pair).terms = terms ∨
        pair ∉ allPairs flat bible ∧ pair.swap ∈ allPairs flat bible ∧
          kinshipReciprocal (resolvePair flat bible episodeKey settings pair.swap).terms =
            some terms := by
  constructor
  · intro hm
    rcases resolved_or_reciprocal h hm with ⟨hp, hterms⟩ | ha
    · exact Or.inl ⟨hp, hterms.symm⟩
    · exact Or.inr (mem_reciprocalAdditions_iff.mp ha)
  · rintro (⟨hp, rfl⟩ | ha)
    · exact reconcile_get? h hp
    · exact reconcile_get?_added h (mem_reciprocalAdditions_iff.mpr ha)

end Keys

section Evolution

/-- An episode's Bible after the merge, the store after reconciliation, and the resolved terms. -/
def passes (order : SetOrder) (flat : List LineAttribution) (seriesId : ℕ) (m : EpisodeMerge)
    (s : Store) : Option (SeriesBibleDTO × Store × Dict Pair Terms) :=
  match mergeBibleAnalysis m.down seriesId m.analysis m.episodeKey m.settings s with
  | (_, .error _) => none
  | (merged, .ok _) =>
    match loadSeriesBible merged seriesId with
    | .error _ => none
    | .ok bible =>
      match reconcileAttributions order flat bible m.episodeKey m.settings merged seriesId with
      | (_, .error _) => none
      | (final, .ok resolved) => some (bible, final, resolved)

/-- An event of the analysis carries both terms for the pair its names resolve to, and its call
does not fail. -/
def Suggests (seriesId : ℕ) (m : EpisodeMerge) (s : Store) (pair : Pair) (terms : Terms) : Prop :=
  let names := (pairsMerged m.down seriesId m.analysis m.episodeKey s).nameToId
  ∃ x ∈ m.analysis.relationshipEvents.zipIdx, m.down (.relationshipEvent x.2) = false ∧
    lookupName names x.1.characterAName = some pair.1 ∧
    lookupName names x.1.characterBName = some pair.2 ∧
    x.1.suggestedSelfTerm = some terms.1 ∧ x.1.suggestedAddressTerm = some terms.2

/-- The pair has the terms, in the map for the translation and in its row. -/
def TakesEffect (seriesId : ℕ) (pair : Pair) (terms : Terms) (final : Store)
    (resolved : Dict Pair Terms) : Prop :=
  resolved.get? pair = some terms ∧
    ∃ id, pairTerms final seriesId pair = [(id, some terms.1, some terms.2)]

/-- What a pair has or, where that is nothing, the safe default. -/
def standingTerms (bible : SeriesBibleDTO) (settings : TrezarrSettings) (pair : Pair) : Terms :=
  (lockedTerms ((existingMap bible).get? pair)).getD
    ((((existingMap bible).get? pair).bind fun row =>
      bothTerms row.selfTerm row.addressTerm).getD (safeDefaultFor bible settings pair))

/-- The terms are what the pair would come to without them: its standing terms, or for a pair
neither attributed nor stored the reciprocal of those in the other direction. -/
def SuggestsStanding (flat : List LineAttribution) (bible : SeriesBibleDTO)
    (settings : TrezarrSettings) (pair : Pair) (terms : Terms) : Prop :=
  if pair ∈ allPairs flat bible then standingTerms bible settings pair = terms
  else pair.swap ∈ allPairs flat bible ∧
    kinshipReciprocal (standingTerms bible settings pair.swap) = some terms

instance (flat : List LineAttribution) (bible : SeriesBibleDTO) (settings : TrezarrSettings)
    (pair : Pair) (terms : Terms) : Decidable (SuggestsStanding flat bible settings pair terms) :=
  inferInstanceAs (Decidable (ite _ _ _))

variable {order : SetOrder} {flat : List LineAttribution} {bible : SeriesBibleDTO} {seriesId : ℕ}
  {episodeKey : Str} {settings : TrezarrSettings} {s final : Store} {pair : Pair} {terms : Terms}
  {resolved : Dict Pair Terms}

/-- A loaded Bible has the rows of the store, and events without suggestions. -/
theorem loaded (h : loadSeriesBible s seriesId = .ok bible) :
    (∀ pair, (existingMap bible).get? pair = (pairRows s seriesId pair).getLast?) ∧
      (∀ event ∈ bible.relationshipEvents,
        bothTerms event.suggestedSelfTerm event.suggestedAddressTerm = none) ∧
      ∀ row ∈ s.relationshipEvents, row.seriesId = seriesId → ∃ event ∈ bible.relationshipEvents,
        event.characterAId = row.characterAId ∧ event.characterBId = row.characterBId ∧
          event.episodeMarker = row.episodeMarker := by
  have hepisode : (Episode.mk seriesId "" {} ⟨id, fun _ => .refl _⟩ []
      bible.relationshipEvents).bible s = .ok bible := by
    rw [Episode.bible, h]
    rfl
  refine ⟨fun pair => existingMap_get? hepisode, ?_⟩
  unfold loadSeriesBible at h
  split at h
  · cases h
  · cases h
    refine ⟨fun event he => ?_, fun row hrow hseries => ?_⟩
    · obtain ⟨row, -, rfl⟩ := List.mem_map.mp he
      rfl
    · exact ⟨_, List.mem_map_of_mem (List.mem_filter.mpr ⟨hrow, decide_eq_true hseries⟩), rfl, rfl,
        rfl⟩

/-- An event without suggestions resolves a pair to its standing terms, and writes them. -/
theorem resolvePair_standing (flat : List LineAttribution)
    (henabled : settings.enableRelationshipEvents = true)
    (hkey : episodeKey ≠ "S00E00".toList)
    (hnone : ∀ event ∈ bible.relationshipEvents,
      bothTerms event.suggestedSelfTerm event.suggestedAddressTerm = none)
    (hevent : ∃ event ∈ bible.relationshipEvents, matchesPair pair episodeKey event = true) :
    (resolvePair flat bible episodeKey settings pair).terms = standingTerms bible settings pair ∧
      (lockedTerms ((existingMap bible).get? pair) = none →
        ∃ validFrom, (resolvePair flat bible episodeKey settings pair).write = some validFrom) := by
  obtain ⟨event, hm, he⟩ := hevent
  have hfound : ∃ event ∈ bible.relationshipEvents,
      transitionFor bible episodeKey settings pair = some event := by
    rw [transitionFor, if_pos ⟨henabled, hkey⟩]
    have hsome : (findTransitionForPair bible.relationshipEvents pair episodeKey).isSome := by
      rw [findTransitionForPair, List.find?_isSome]
      exact ⟨event, hm, he⟩
    obtain ⟨event, hevent⟩ := Option.isSome_iff_exists.mp hsome
    exact ⟨event, List.mem_of_find?_eq_some hevent, hevent⟩
  obtain ⟨transition, ht, htransition⟩ := hfound
  have hderived : deriveTransitionTerms transition ((existingMap bible).get? pair)
      (genderOf bible pair.2) settings bible.registerValue =
      (((existingMap bible).get? pair).bind fun row =>
        bothTerms row.selfTerm row.addressTerm).getD (safeDefaultFor bible settings pair) := by
    rw [deriveTransitionTerms, hnone transition ht]
    dsimp only
    cases ((existingMap bible).get? pair).bind fun row =>
      bothTerms row.selfTerm row.addressTerm <;> rfl
  rw [resolvePair, standingTerms, htransition, ← hderived]
  dsimp only
  cases lockedTerms ((existingMap bible).get? pair) with
  | some locked =>
    refine ⟨rfl, fun hnone => ?_⟩
    cases hnone
  | none => exact ⟨rfl, fun _ => ⟨_, rfl⟩⟩

theorem reconcile_writes
    (h : reconcileAttributions order flat bible episodeKey settings s seriesId =
      (final, .ok resolved)) :
    ∃ mid, upsertPairs seriesId episodeKey s
        (resolvedWrites order flat bible episodeKey settings) = (mid, .ok ()) ∧
      upsertPairs seriesId episodeKey mid
        ((reciprocalAdditions (resolvedTerms order flat bible episodeKey settings)).map
          fun a => (a.1, a.2, none)) = (final, .ok ()) := by
  unfold reconcileAttributions at h
  split at h
  · cases h
  · next mid u hmid =>
    dsimp only at h
    split at h
    · cases h
    · next last u' hlast =>
      cases h
      exact ⟨mid, hmid, hlast⟩

/-- A pair that is not resolved has the terms its reciprocal implies, if it implies any. -/
theorem reconcile_reciprocal (hp : pair ∉ allPairs flat bible)
    (h : reconcileAttributions order flat bible episodeKey settings s seriesId =
      (final, .ok resolved)) (hrows : pairTerms s seriesId pair = []) :
    TakesEffect seriesId pair terms final resolved ↔
      (pair, terms) ∈ reciprocalAdditions (resolvedTerms order flat bible episodeKey settings) := by
  have hok := congrArg Prod.snd h
  constructor
  · rintro ⟨hget, -⟩
    rcases resolved_or_reciprocal hok hget with ⟨hin, -⟩ | ha
    · exact (hp hin).elim
    · exact ha
  · intro ha
    have hkeys := reciprocalAdditions_keys (resolvedTerms order flat bible episodeKey settings)
    constructor
    · exact reconcile_get?_added hok ha
    · obtain ⟨mid, hmid, hfinal⟩ := reconcile_writes h
      have hnone : pairTerms mid seriesId pair = [] := by
        have hsame : pairTerms (upsertPairs seriesId episodeKey s
            (resolvedWrites order flat bible episodeKey settings)).1 seriesId pair =
              pairTerms s seriesId pair := by
          refine upsertPairs_pairTerms fun w hw hq => ?_
          have he : w.1 = pair := (Prod.ext_iff.mp hq).2
          exact (hp (he ▸ (mem_resolvedWrites hw).1)).elim
        rw [hmid, hrows] at hsame
        exact hsame
      have hopen : PairOpen mid seriesId pair := by
        intro row hrow
        rw [pairTerms_eq_nil.mp hnone] at hrow
        cases hrow
      refine upsertPairs_written ?_ (?_ : (pair, terms, none) ∈ _) hopen hfinal
      · rw [List.map_map]
        exact hkeys
      · exact List.mem_map.mpr ⟨(pair, terms), ha, rfl⟩

/-- A pair that is resolved and open has its own terms, and no others. -/
theorem reconcile_resolved (hp : pair ∈ allPairs flat bible)
    (h : reconcileAttributions order flat bible episodeKey settings s seriesId =
      (final, .ok resolved)) (hopen : PairOpen s seriesId pair)
    (hw : ∃ validFrom, (resolvePair flat bible episodeKey settings pair).write = some validFrom) :
    TakesEffect seriesId pair terms final resolved ↔
      (resolvePair flat bible episodeKey settings pair).terms = terms := by
  have hget := reconcile_get? (congrArg Prod.snd h) hp
  constructor
  · rintro ⟨hterms, -⟩
    exact Option.some_inj.mp (hget.symm.trans hterms)
  · rintro rfl
    refine ⟨hget, ?_⟩
    obtain ⟨validFrom, hwrite⟩ := hw
    obtain ⟨mid, hmid, hfinal⟩ := reconcile_writes h
    have hmem : (pair, (resolvePair flat bible episodeKey settings pair).terms, validFrom) ∈
        resolvedWrites order flat bible episodeKey settings := by
      refine List.mem_filterMap.mpr
        ⟨(pair, resolvePair flat bible episodeKey settings pair), ?_, by rw [hwrite]; rfl⟩
      exact List.mem_map_of_mem ((order.perm _).mem_iff.mpr hp)
    obtain ⟨id, hid⟩ := upsertPairs_written resolvedWrites_keys hmem hopen hmid
    have hsame : pairTerms (upsertPairs seriesId episodeKey mid
        ((reciprocalAdditions (resolvedTerms order flat bible episodeKey settings)).map
          fun a => (a.1, a.2, none))).1 seriesId pair = pairTerms mid seriesId pair := by
      refine upsertPairs_pairTerms fun w hw hq => ?_
      obtain ⟨a, ha, rfl⟩ := List.mem_map.mp hw
      have hkey := (mem_reciprocalAdditions ha).1
      rw [show a.1 = pair from (Prod.ext_iff.mp hq).2] at hkey
      exact (hkey (Dict.mem_keys_iff.mpr ⟨_, resolvedTerms_of_mem hp⟩)).elim
    rw [hfinal] at hsame
    exact ⟨id, hsame.trans hid⟩

theorem lookupName_get? {names : Dict Str ℕ} {name : Str} {id : ℕ}
    (h : lookupName names name = some id) : ∃ key, names.get? key = some id := by
  unfold lookupName at h
  split at h
  · exact ⟨_, h⟩
  · exact ⟨_, h⟩
  · next other hget =>
    cases h
    exact ⟨_, hget⟩

/-- The event of a suggestion is in the Bible that is loaded after the merge. -/
theorem suggested_event_loaded {m : EpisodeMerge} {merged : Store} {u : Unit}
    (henabled : m.settings.enableRelationshipEvents = true)
    (hsuggests : Suggests seriesId m s pair terms)
    (hmerge : mergeBibleAnalysis m.down seriesId m.analysis m.episodeKey m.settings s =
      (merged, .ok u)) (hload : loadSeriesBible merged seriesId = .ok bible) :
    ∃ event ∈ bible.relationshipEvents, matchesPair pair m.episodeKey event = true := by
  obtain ⟨x, hx, hup, ha, hb, -⟩ := hsuggests
  have hend := merge_ok hmerge henabled
  have hseries : (merged.series.get? seriesId).isSome = true := by
    unfold loadSeriesBible at hload
    split at hload
    · cases hload
    · next row hrow =>
      rw [hrow]
      rfl
  have hstored : seriesStored
      (pairsMerged m.down seriesId m.analysis m.episodeKey s).store seriesId = true := by
    have hsame : merged.series =
        (pairsMerged m.down seriesId m.analysis m.episodeKey s).store.series := by
      rw [hend]
      exact mergeEvents_frame fun _ _ => rfl
    rw [seriesStored, ← hsame, hseries, Bool.or_true]
  obtain ⟨ka, hka⟩ := lookupName_get? ha
  obtain ⟨kb, hkb⟩ := lookupName_get? hb
  have hfound : findRelationshipEvents merged seriesId pair.1 pair.2 m.episodeKey ≠ [] := by
    rw [hend]
    exact event_recorded hx hup ha hb hstored (pairsMerged_stored ka _ hka)
      (pairsMerged_stored kb _ hkb)
  obtain ⟨row, hrow⟩ := List.exists_mem_of_ne_nil _ hfound
  obtain ⟨hmem, hrow⟩ := List.mem_filter.mp hrow
  obtain ⟨hs, hrow⟩ := of_decide_eq_true hrow
  obtain ⟨event, hevent, hea, heb, hmarker⟩ := (loaded hload).2.2 row hmem hs
  refine ⟨event, hevent, ?_⟩
  simp [matchesPair, hea, heb, hmarker, hrow]

/-- The suggestion is lost on the way: it takes effect only where it suggests what stands. -/
theorem suggestion_takes_effect_iff (order : SetOrder) (flat : List LineAttribution) (seriesId : ℕ)
    (m : EpisodeMerge) (s : Store) (pair : Pair) (terms : Terms) (bible : SeriesBibleDTO)
    (final : Store) (resolved : Dict Pair Terms)
    (henabled : m.settings.enableRelationshipEvents = true)
    (hkey : m.episodeKey ≠ "S00E00".toList) (hsuggests : Suggests seriesId m s pair terms)
    (hopen : PairOpen s seriesId pair)
    (h : passes order flat seriesId m s = some (bible, final, resolved)) :
    TakesEffect seriesId pair terms final resolved ↔
      SuggestsStanding flat bible m.settings pair terms := by
  unfold passes at h
  split at h
  · cases h
  next merged u hmerge =>
  split at h
  · cases h
  next hload =>
  split at h
  · cases h
  next hreconcile =>
  cases h
  obtain ⟨hmap, hnone, -⟩ := loaded hload
  obtain ⟨event, hevent, hmatch⟩ := suggested_event_loaded henabled hsuggests hmerge hload
  have hopen' : PairOpen merged seriesId pair := by
    have hkept : PairOpen s seriesId pair →
        PairOpen (mergeBibleAnalysis m.down seriesId m.analysis m.episodeKey m.settings s).1
          seriesId pair :=
      pairOpen_respected.merge m.settings fun _ => pairOpen_of_eq lockNames_frame
    rw [hmerge] at hkept
    exact hkept hopen
  by_cases hp : pair ∈ allPairs flat bible
  · have hunlocked : lockedTerms ((existingMap bible).get? pair) = none := by
      rw [hmap]
      cases hrow : (pairRows merged seriesId pair).getLast? with
      | none => rfl
      | some row =>
        obtain ⟨hs, ha⟩ := hopen' row (List.mem_of_getLast? hrow)
        exact if_neg (not_or.mpr ⟨hs, ha⟩)
    obtain ⟨hterms, hwrite⟩ := resolvePair_standing flat henabled hkey hnone
      ⟨event, hevent, hmatch⟩
    rw [reconcile_resolved hp hreconcile hopen' (hwrite hunlocked), hterms, SuggestsStanding,
      if_pos hp]
  · have hrows : pairTerms merged seriesId pair = [] := by
      rw [pairTerms_eq_nil, ← List.getLast?_eq_none_iff, ← hmap]
      by_contra hstored
      obtain ⟨row, hrow⟩ := Option.ne_none_iff_exists'.mp hstored
      refine hp (List.mem_dedup.mpr (List.mem_append_right _ ?_))
      exact Dict.mem_keys_iff.mpr ⟨row, hrow⟩
    have hmatch' : matchesPair pair.swap m.episodeKey event = true := by
      rw [matchesPair_swap]
      exact hmatch
    have hterms := (resolvePair_standing flat henabled hkey hnone
      ⟨event, hevent, hmatch'⟩).1
    rw [reconcile_reciprocal hp hreconcile hrows, SuggestsStanding, if_neg hp,
      mem_reciprocalAdditions_iff, hterms]
    exact and_iff_right hp

end Evolution

def swornStore : Store where
  series := ⟨[{ id := 1 }], nodup_firstSeries⟩
  characters :=
    ⟨[{ id := 1, seriesId := 1, originalLatinName := "Han" },
      { id := 2, seriesId := 1, originalLatinName := "Mei" }], by decide⟩
  addressMaps :=
    ⟨[{ id := 1, seriesId := 1, speakerCharacterId := 1, addresseeCharacterId := 2
        selfTerm := some "ta", addressTerm := some "nàng" }], by decide⟩

/-- An episode whose analysis suggests terms for how Han speaks to Mei. -/
def swornEpisode (self address : Str) : EpisodeMerge where
  down _ := false
  analysis :=
    { relationshipEvents :=
        [{ characterAName := "Han", characterBName := "Mei", description := "They swear an oath."
           suggestedSelfTerm := some self, suggestedAddressTerm := some address }] }
  episodeKey := "S01E02"
  settings := {}

def asListed : SetOrder := ⟨id, List.Perm.refl⟩

/-- What is suggested is what Han says already. -/
theorem standing_suggestion_takes_effect : ∃ bible final resolved,
    passes asListed [] 1 (swornEpisode "ta" "nàng") swornStore = some (bible, final, resolved) ∧
      TakesEffect 1 (1, 2) ("ta".toList, "nàng".toList) final resolved := by
  have hpasses : (passes asListed [] 1 (swornEpisode "ta" "nàng") swornStore).map (fun r =>
      decide (SuggestsStanding [] r.1 {} (1, 2) ("ta".toList, "nàng".toList))) = some true := by
    decide
  obtain ⟨⟨bible, final, resolved⟩, h, hstanding⟩ := Option.map_eq_some_iff.mp hpasses
  refine ⟨bible, final, resolved, h, ?_⟩
  refine (suggestion_takes_effect_iff asListed [] 1 (swornEpisode "ta" "nàng") swornStore (1, 2)
    ("ta".toList, "nàng".toList) bible final resolved rfl (by decide) ?_ ?_ h).mpr
    (of_decide_eq_true hstanding)
  · exact ⟨_, List.mem_singleton_self _, rfl, by decide, by decide, rfl, rfl⟩
  · unfold PairOpen
    decide

theorem suggestion_is_lost : ∃ bible final resolved,
    passes asListed [] 1 (swornEpisode "huynh" "muội") swornStore = some (bible, final, resolved) ∧
      ¬ TakesEffect 1 (1, 2) ("huynh".toList, "muội".toList) final resolved := by
  have hpasses : (passes asListed [] 1 (swornEpisode "huynh" "muội") swornStore).map
      (·.2.2.get? (1, 2)) = some (some ("ta".toList, "nàng".toList)) := by
    decide
  obtain ⟨⟨bible, final, resolved⟩, h, hget⟩ := Option.map_eq_some_iff.mp hpasses
  refine ⟨bible, final, resolved, h, fun hte => ?_⟩
  have hterms := hget.symm.trans hte.1
  revert hterms
  decide

end Trezarr
