import Trezarr.Lib.Footprints
import Trezarr.Translate.Suggestions

/-! The set of pairs has no order, and neither has what reconciliation makes of it. -/
namespace Trezarr
open Text Rows BibleRow Fallible Footprints

section Places

/-- The tables that foreign keys refer to, and whether they are checked. -/
structure SameReferences (s t : Store) : Prop where
  series : s.series = t.series
  characters : s.characters = t.characters
  enforceFk : s.enforceFk = t.enforceFk

/-- A row without its key. -/
def contents (row : AddressMap) : AddressMap := { row with id := 0 }

/-- The rows of a pair of a series are the same but for their keys. -/
structure AlikeAt (place : ℕ × Pair) (s t : Store) : Prop extends SameReferences s t where
  rows : (pairRows s place.1 place.2).map contents = (pairRows t place.1 place.2).map contents

variable {R : Type} [BibleRow R] {s t s' : Store} {episodeKey : Option Str} {source : Str}
  {field : Field} {oldVal newVal : Option Str} {fields : List (Field × Option Str)}
  {events : List BibleEvent} {a b r : AddressMap}

theorem alike_equivalence (place : ℕ × Pair) : Equivalence (AlikeAt place) where
  refl _ := ⟨⟨rfl, rfl, rfl⟩, rfl⟩
  symm h := ⟨⟨h.series.symm, h.characters.symm, h.enforceFk.symm⟩, h.rows.symm⟩
  trans h h' := ⟨⟨h.series.trans h'.series, h.characters.trans h'.characters,
    h.enforceFk.trans h'.enforceFk⟩, h.rows.trans h'.rows⟩

theorem SameReferences.addEvent {row : R} {evt : BibleEvent} (hst : SameReferences s t) (row' : R)
    (h : addEvent s row episodeKey field oldVal newVal source = .ok (evt, s'))
    (hid : seriesId row' = seriesId row) :
    ∃ evt' t', addEvent t row' episodeKey field oldVal newVal source = .ok (evt', t') ∧
      SameReferences s' t' := by
  have hchecked : (t.enforceFk && (t.series.get? (seriesId row')).isNone) =
      (s.enforceFk && (s.series.get? (seriesId row)).isNone) := by
    rw [hst.series, hst.enforceFk, hid]
  unfold Trezarr.addEvent at h ⊢
  split at h
  · cases h
  · split at h
    · cases h
    · next hstored =>
      cases h
      rw [if_neg (hchecked ▸ hstored)]
      exact ⟨_, _, rfl, hst.series, hst.characters, hst.enforceFk⟩

theorem SameReferences.addCreationEvents {row : R} (hst : SameReferences s t) (row' : R)
    (h : addCreationEvents row episodeKey source s fields = .ok (events, s'))
    (hid : seriesId row' = seriesId row) :
    ∃ events' t', addCreationEvents row' episodeKey source t fields = .ok (events', t') := by
  induction fields generalizing s t events with
  | nil => exact ⟨[], t, rfl⟩
  | cons fv fields ih =>
    obtain ⟨f, v⟩ := fv
    cases v with
    | none => exact ih hst h
    | some v =>
      obtain ⟨⟨evt, s₁⟩, he, h⟩ := bind_ok h
      obtain ⟨⟨evts, s₂⟩, hr, h⟩ := bind_ok h
      cases h
      obtain ⟨evt', t₁, he', hst'⟩ := hst.addEvent row' he hid
      obtain ⟨evts', t₂, hr'⟩ := ih hst' hr
      refine ⟨evt' :: evts', t₂, ?_⟩
      simp only [Trezarr.addCreationEvents, he', hr', ok_bind, pure_eq_ok]

/-- Where a new row can be stored in one database it can be in the other. -/
theorem SameReferences.createRow (hst : SameReferences s t)
    (h : createRow s a fields episodeKey source = .ok (r, events, s')) :
    ∃ r' events' t', createRow t a fields episodeKey source = .ok (r', events', t') ∧
      contents r' = contents r := by
  obtain ⟨⟨r₁, s₁⟩, ha, h⟩ := bind_ok h
  obtain ⟨⟨evts, s₂⟩, he, h⟩ := bind_ok h
  cases h
  have href : references t a = references s a := by
    dsimp only [BibleRow.references]
    rw [hst.series, hst.characters]
  have hrow : addRow t a =
      .ok ((t.addressMaps.insert a).1, withTable t (t.addressMaps.insert a).2) := by
    unfold addRow at ha ⊢
    rw [← hst.enforceFk, href]
    split at ha
    · cases ha
    · next hstored => exact if_neg hstored
  obtain ⟨rfl, rfl⟩ := addRow_ok ha
  have hst' : SameReferences (withTable s (s.addressMaps.insert a).2)
      (withTable t (t.addressMaps.insert a).2) := ⟨hst.series, hst.characters, hst.enforceFk⟩
  obtain ⟨evts', t₂, he'⟩ := hst'.addCreationEvents (t.addressMaps.insert a).1 he rfl
  refine ⟨(t.addressMaps.insert a).1, evts', t₂, ?_, rfl⟩
  simp only [Trezarr.createRow, hrow, he', ok_bind, pure_eq_ok]

/-- The merge loop writes to a row what it writes to one with the same contents. -/
theorem SameReferences.applyPairFields {locked : List Field} {n : ℕ} (hst : SameReferences s t)
    (h : applyPairFields episodeKey source locked a s fields = .ok (r, events, s')) :
    ∃ events' t', applyPairFields episodeKey source locked { a with id := n } t fields =
      .ok ({ r with id := n }, events', t') := by
  induction fields generalizing a s t events with
  | nil =>
    cases h
    exact ⟨[], t, rfl⟩
  | cons fv fields ih =>
    obtain ⟨f, v⟩ := fv
    have hvalue : value { a with id := n } f = value a f := by cases f <;> rfl
    unfold Trezarr.applyPairFields at h ⊢
    rw [hvalue]
    split at h
    · next hskip =>
      rw [if_pos hskip]
      exact ih hst h
    · next hwrite =>
      rw [if_neg hwrite]
      obtain ⟨a₁, hset, h⟩ := bind_ok h
      obtain ⟨⟨evt, s₁⟩, he, h⟩ := bind_ok h
      obtain ⟨⟨r₁, evts, s₂⟩, hr, h⟩ := bind_ok h
      cases h
      have hset' : setValue { a with id := n } f v = .ok { a₁ with id := n } := by
        cases f <;> cases hset <;> rfl
      obtain ⟨evt', t₁, he', hst'⟩ := hst.addEvent { a₁ with id := n } he rfl
      obtain ⟨evts', t₂, hr'⟩ := ih hst' hr
      refine ⟨evt' :: evts', t₂, ?_⟩
      simp only [hset', he', hr', ok_bind, pure_eq_ok]

theorem eq_withId_of_contents (h : contents b = contents a) : b = { a with id := b.id } := by
  obtain ⟨id, series, spk, addr, self, address, validFrom, locked⟩ := b
  cases h
  rfl

variable {series spk addr : ℕ} {self address validFrom : Option Str}

def referenced (s : Store) : Table Series × Table Character × Bool :=
  (s.series, s.characters, s.enforceFk)

instance : EventFree referenced := ⟨fun _ _ => rfl⟩

instance : TableFree referenced AddressMap := ⟨fun _ _ => rfl⟩

theorem upsertAddressPair_references
    (h : upsertAddressPairInSession s series spk addr self address validFrom episodeKey source =
      .ok (r, events, s')) : SameReferences s s' := by
  have hsame : referenced s' = referenced s := upsertAddressPair_frame h
  obtain ⟨hseries, hrest⟩ := Prod.ext_iff.mp hsame
  obtain ⟨hcharacters, hfk⟩ := Prod.ext_iff.mp hrest
  exact ⟨hseries.symm, hcharacters.symm, hfk.symm⟩

/-- What a write makes of a pair depends on the rows of the pair only. -/
theorem upsertAddressPair_alike (hst : AlikeAt (series, spk, addr) s t)
    (h : upsertAddressPairInSession s series spk addr self address validFrom episodeKey source =
      .ok (r, events, s')) :
    ∃ r' events' t', upsertAddressPairInSession t series spk addr self address validFrom episodeKey
      source = .ok (r', events', t') ∧ contents r' = contents r := by
  have hrows := hst.rows
  dsimp only [pairRows] at hrows
  rcases upsertAddressPair_cases h with ⟨hnone, hnew⟩ | ⟨found, mid, hfound, hf, -⟩
  · have hnone' : findAddressPair t series spk addr = [] := by
      rw [hnone] at hrows
      exact List.map_eq_nil_iff.mp hrows.symm
    obtain ⟨r', events', t', hnew', hr⟩ := hst.createRow hnew
    refine ⟨r', events', t', ?_, hr⟩
    unfold upsertAddressPairInSession
    rw [hnone']
    exact hnew'
  · obtain ⟨found', hfound', hc⟩ : ∃ found', findAddressPair t series spk addr = [found'] ∧
        contents found' = contents found := by
      rw [hfound] at hrows
      exact List.map_eq_singleton_iff.mp hrows.symm
    obtain ⟨events', t', hf'⟩ := hst.applyPairFields (n := found'.id) hf
    rw [← eq_withId_of_contents hc] at hf'
    refine ⟨{ r with id := found'.id }, events', storeRow t' { r with id := found'.id }, ?_, rfl⟩
    have hlocked : found'.lockedFields = found.lockedFields := by
      rw [eq_withId_of_contents hc]
    unfold upsertAddressPairInSession
    rw [hfound']
    change (applyPairFields episodeKey source found'.lockedFields found' t _ >>= fun out => _) = _
    rw [hlocked, hf']
    rfl

end Places

section Writes

variable {s t s' : Store} {seriesId : ℕ} {episodeKey : Str} {ws : List PairWrite}

/-- One transaction of reconciliation. -/
def writePair (seriesId : ℕ) (episodeKey : Str) (s : Store) (w : PairWrite) :
    Except StoreError Store :=
  (upsertAddressPairInSession s seriesId w.1.1 w.1.2 (some w.2.1.1) (some w.2.1.2) w.2.2
    (some episodeKey) "inference").map fun out => out.2.2

theorem upsertPairs_ok_iff : upsertPairs seriesId episodeKey s ws = (s', .ok ()) ↔
    ws.foldlM (writePair seriesId episodeKey) s = .ok s' := by
  induction ws generalizing s with
  | nil =>
    constructor
    · intro h
      cases h
      rfl
    · intro h
      cases h
      rfl
  | cons w ws ih =>
    rw [foldlM_cons_ok]
    unfold upsertPairs
    cases hu : upsertAddressPairInSession s seriesId w.1.1 w.1.2 (some w.2.1.1) (some w.2.1.2) w.2.2
      (some episodeKey) "inference" with
    | error err =>
      have hw : writePair seriesId episodeKey s w = .error err := by
        rw [writePair, hu]
        rfl
      simp [hw]
    | ok out =>
      have hw : writePair seriesId episodeKey s w = .ok out.2.2 := by
        rw [writePair, hu]
        rfl
      simp [hw, ih]

theorem writePair_local (seriesId : ℕ) (episodeKey : Str) :
    Local (writePair seriesId episodeKey) (fun w => (seriesId, w.1)) AlikeAt where
  equivalence := alike_equivalence
  own := by
    intro w s t s' hst h
    obtain ⟨⟨r, events, s₁⟩, hu, rfl⟩ := map_ok h
    obtain ⟨r', events', t', hu', hr⟩ := upsertAddressPair_alike hst hu
    have hs := upsertAddressPair_references hu
    have ht := upsertAddressPair_references hu'
    refine ⟨t', ?_, ?_, ?_⟩
    · rw [writePair, hu']
      rfl
    · exact ⟨hs.series.symm.trans (hst.series.trans ht.series),
        hs.characters.symm.trans (hst.characters.trans ht.characters),
        hs.enforceFk.symm.trans (hst.enforceFk.trans ht.enforceFk)⟩
    · have hrow : pairRows s₁ seriesId w.1 = [r] := upsertAddressPair_pairRows hu
      have hrow' : pairRows t' seriesId w.1 = [r'] := upsertAddressPair_pairRows hu'
      rw [hrow, hrow', List.map_singleton, List.map_singleton, hr]
  other := by
    intro w s s' place h hne
    obtain ⟨⟨r, events, s₁⟩, hu, rfl⟩ := map_ok h
    refine ⟨upsertAddressPair_references hu, ?_⟩
    have hrows : pairRows s₁ place.1 place.2 = pairRows s place.1 place.2 :=
      pairRows_upsert_of_ne hne.symm hu
    rw [hrows]

end Writes

section Orders

variable {order order' : SetOrder} {flat : List LineAttribution} {bible : SeriesBibleDTO}
  {episodeKey : Str} {settings : TrezarrSettings} {s t final : Store} {seriesId : ℕ}
  {resolved : Dict Pair Terms}

theorem resolvedWrites_perm (order order' : SetOrder) :
    (resolvedWrites order flat bible episodeKey settings).Perm
      (resolvedWrites order' flat bible episodeKey settings) := by
  have hpairs := (order.perm (allPairs flat bible)).trans (order'.perm (allPairs flat bible)).symm
  exact (hpairs.map _).filterMap _

theorem reciprocalAdditions_perm (order order' : SetOrder) :
    (reciprocalAdditions (resolvedTerms order flat bible episodeKey settings)).Perm
      (reciprocalAdditions (resolvedTerms order' flat bible episodeKey settings)) := by
  have hnodup : ∀ m, (reciprocalAdditions m).Nodup := fun m =>
    (reciprocalAdditions_keys m).of_map
  rw [List.perm_ext_iff_of_nodup (hnodup _) (hnodup _)]
  rintro ⟨pair, terms⟩
  rw [mem_reciprocalAdditions_iff, mem_reciprocalAdditions_iff]

theorem reconcile_of_writes {mid : Store}
    (hmid : upsertPairs seriesId episodeKey s
      (resolvedWrites order flat bible episodeKey settings) = (mid, .ok ()))
    (hfinal : upsertPairs seriesId episodeKey mid
      ((reciprocalAdditions (resolvedTerms order flat bible episodeKey settings)).map
        fun a => (a.1, a.2, none)) = (final, .ok ())) :
    ∃ resolved, reconcileAttributions order flat bible episodeKey settings s seriesId =
      (final, .ok resolved) := by
  unfold reconcileAttributions
  rw [hmid]
  dsimp only
  rw [hfinal]
  exact ⟨_, rfl⟩

/-- Walked in another order the pairs get the same terms, and the same rows. -/
theorem reconcile_reordered (order' : SetOrder)
    (h : reconcileAttributions order flat bible episodeKey settings s seriesId =
      (final, .ok resolved)) :
    ∃ final' resolved', reconcileAttributions order' flat bible episodeKey settings s seriesId =
        (final', .ok resolved') ∧ (∀ pair, resolved.get? pair = resolved'.get? pair) ∧
      ∀ place, AlikeAt place final final' := by
  have hlocal := writePair_local seriesId episodeKey
  have hkeys : ∀ ws : List PairWrite, (ws.map Prod.fst).Nodup →
      (ws.map fun w => (seriesId, w.1)).Nodup := by
    intro ws hd
    have hpaired := hd.map (Prod.mk_right_injective seriesId)
    rwa [List.map_map] at hpaired
  obtain ⟨mid, hmid, hfinal⟩ := reconcile_writes h
  obtain ⟨mid', hmid', hmids⟩ := hlocal.run_perm (resolvedWrites_perm order order')
    (hkeys _ resolvedWrites_keys) (fun place => (alike_equivalence place).refl s)
    (upsertPairs_ok_iff.mp hmid)
  have hadded : ((reciprocalAdditions (resolvedTerms order flat bible episodeKey settings)).map
      fun a => ((a.1, a.2, none) : PairWrite)).map Prod.fst =
        (reciprocalAdditions (resolvedTerms order flat bible episodeKey settings)).map
          Prod.fst := by
    rw [List.map_map]
    rfl
  obtain ⟨final', hfinal', hfinals⟩ := hlocal.run_perm
    ((reciprocalAdditions_perm order order').map _)
    (hkeys _ (hadded ▸ reciprocalAdditions_keys _)) hmids (upsertPairs_ok_iff.mp hfinal)
  obtain ⟨resolved', h'⟩ := reconcile_of_writes (upsertPairs_ok_iff.mpr hmid')
    (upsertPairs_ok_iff.mpr hfinal')
  refine ⟨final', resolved', h', ?_, hfinals⟩
  intro pair
  apply Option.ext
  intro terms
  rw [reconcile_get?_iff (congrArg Prod.snd h), reconcile_get?_iff (congrArg Prod.snd h')]

def placeOf (row : AddressMap) : ℕ × Pair :=
  (row.seriesId, row.speakerCharacterId, row.addresseeCharacterId)

theorem contents_perm (h : ∀ place, AlikeAt place s t) :
    (s.addressMaps.rows.map contents).Perm (t.addressMaps.rows.map contents) := by
  have hplace : ∀ (u : Store) (place : ℕ × Pair),
      (u.addressMaps.rows.map contents).filter (placeOf · = place) =
        (pairRows u place.1 place.2).map contents := by
    intro u place
    rw [List.filter_map, pairRows, findAddressPair, Table.select]
    refine congrArg (List.map contents) (List.filter_congr ?_)
    intro row _
    exact decide_eq_decide.mpr ident_iff
  have hsame : ∀ place, (s.addressMaps.rows.map contents).filter (placeOf · = place) =
      (t.addressMaps.rows.map contents).filter (placeOf · = place) := by
    intro place
    rw [hplace, hplace, (h place).rows]
  exact perm_of_filter_eq hsame

/-- Two runs that come to the same: both raise, or both give every pair the same terms and leave
rows with the same contents. -/
def SameOutcome : Store × Except StoreError (Dict Pair Terms) →
    Store × Except StoreError (Dict Pair Terms) → Prop
  | (s, .ok m), (t, .ok m') => (∀ pair, m.get? pair = m'.get? pair) ∧
      (s.addressMaps.rows.map contents).Perm (t.addressMaps.rows.map contents)
  | (_, .error _), (_, .error _) => True
  | _, _ => False

/-- Terms that have a reciprocal leave no pair without its reverse. -/
def ReciprocallyClosed (m : Dict Pair Terms) : Prop :=
  ∀ pair terms, m.get? pair = some terms → (kinshipReciprocal terms).isSome = true →
    pair.swap ∈ m.keys

theorem reciprocallyClosed
    (h : (reconcileAttributions order flat bible episodeKey settings s seriesId).2 =
      .ok resolved) : ReciprocallyClosed resolved := by
  intro pair terms hget hkin
  obtain ⟨recip, hrecip⟩ := Option.isSome_iff_exists.mp hkin
  have hlisted : ∀ q ∈ allPairs flat bible, q ∈ resolved.keys := fun q hq =>
    Dict.mem_keys_iff.mpr ⟨_, reconcile_get? h hq⟩
  rcases (reconcile_get?_iff h).mp hget with ⟨hp, rfl⟩ | ⟨-, hswap, -⟩
  · by_cases hswap : pair.swap ∈ allPairs flat bible
    · exact hlisted _ hswap
    · refine Dict.mem_keys_iff.mpr ⟨recip, (reconcile_get?_iff h).mpr (Or.inr ⟨hswap, ?_⟩)⟩
      rw [Prod.swap_swap]
      exact ⟨hp, hrecip⟩
  · exact hlisted _ hswap

end Orders

section Returns

variable {s s' : Store} {seriesId : ℕ} {episodeKey : Str} {pair : Pair} {key : Option Str}
  {source : Str} {locked : List Field} {row : AddressMap} {fields : List (Field × Option Str)}

/-- One row at most, and everything that a new one would refer to. -/
structure Writable (s : Store) (seriesId : ℕ) (pair : Pair) : Prop where
  single : (pairRows s seriesId pair).length ≤ 1
  series : (s.series.get? seriesId).isSome = true
  speaker : (s.characters.get? pair.1).isSome = true
  addressee : (s.characters.get? pair.2).isSome = true

theorem applyPairFields_returns (hs : seriesStored s row.seriesId = true)
    (hv : (Source.ofName source).isSome = true) :
    ∃ out, applyPairFields key source locked row s fields = .ok out := by
  induction fields generalizing row s with
  | nil => exact ⟨_, rfl⟩
  | cons fv fields ih =>
    obtain ⟨f, v⟩ := fv
    unfold applyPairFields
    split
    · exact ih hs
    · obtain ⟨row', hset, hseries⟩ : ∃ row', setValue row f v = .ok row' ∧
          row'.seriesId = row.seriesId := by
        cases f <;> exact ⟨_, rfl, rfl⟩
      have hs' : seriesStored s (BibleRow.seriesId row') = true := by
        dsimp only [BibleRow.seriesId]
        rw [hseries]
        exact hs
      obtain ⟨⟨evt, s₁⟩, he⟩ := addEvent_of_stored key f (value row f) v hs' hv
      have hs₁ : seriesStored s₁ row'.seriesId = true := by
        rw [(addEvent_ok he).2.2.2]
        exact hs'
      obtain ⟨⟨r, events, s₂⟩, hr⟩ := ih hs₁
      refine ⟨(r, evt :: events, s₂), ?_⟩
      simp only [hset, he, hr, ok_bind, pure_eq_ok]

theorem createRow_returns (href : references s row = true)
    (hv : (Source.ofName source).isSome = true) :
    ∃ out, createRow s row fields key source = .ok out := by
  have hadd : addRow s row =
      .ok (((table s).insert row).1, withTable s ((table s).insert row).2) :=
    if_neg (by simp [href])
  have hseries : (s.series.get? row.seriesId).isSome = true := by
    dsimp only [BibleRow.references] at href
    rw [Bool.and_eq_true, Bool.and_eq_true] at href
    exact href.1.1
  have hstored : seriesStored (withTable s ((table s).insert row).2)
      (BibleRow.seriesId ((table s).insert row).1) = true := by
    rw [seriesStored, Bool.or_eq_true]
    exact Or.inr hseries
  obtain ⟨⟨events, s'⟩, he⟩ : ∃ out, addCreationEvents _ key source _ fields = .ok out :=
    (addCreationEvents_ok_iff key hstored).mpr (Or.inr hv)
  refine ⟨(((table s).insert row).1, events, s'), ?_⟩
  simp only [createRow, hadd, he, ok_bind, pure_eq_ok]

theorem upsertAddressPair_returns {self address validFrom : Option Str}
    (h : Writable s seriesId pair) (hv : (Source.ofName source).isSome = true) :
    ∃ out, upsertAddressPairInSession s seriesId pair.1 pair.2 self address validFrom key source =
      .ok out := by
  have hsingle : (findAddressPair s seriesId pair.1 pair.2).length ≤ 1 := h.single
  unfold upsertAddressPairInSession
  rcases hrows : findAddressPair s seriesId pair.1 pair.2 with - | ⟨row, - | ⟨row', rows⟩⟩
  · apply createRow_returns _ hv
    simp [BibleRow.references, h.series, h.speaker, h.addressee]
  · have hm : row ∈ pairRows s seriesId pair := by simp [pairRows, hrows]
    have hseries : row.seriesId = seriesId := (ident_iff.mp (mem_pairRows.mp hm).2).1
    have hstored : seriesStored s row.seriesId = true := by
      simp [seriesStored, hseries, h.series]
    obtain ⟨⟨r, events, s'⟩, hf⟩ := applyPairFields_returns hstored hv
    refine ⟨(r, events, storeRow s' r), ?_⟩
    change (applyPairFields key source row.lockedFields row s _ >>= fun out => _) = _
    rw [hf]
    rfl
  · simp [hrows] at hsingle

theorem writePair_returns {w : PairWrite} (h : Writable s seriesId w.1) :
    ∃ s', writePair seriesId episodeKey s w = .ok s' ∧
      ∀ pair, Writable s seriesId pair → Writable s' seriesId pair := by
  have hv : (Source.ofName "inference".toList).isSome = true := by decide
  obtain ⟨⟨r, events, s'⟩, hu⟩ := upsertAddressPair_returns h hv
  refine ⟨s', ?_, ?_⟩
  · rw [writePair, hu]
    rfl
  · intro pair hp
    have hrefs := upsertAddressPair_references hu
    refine ⟨?_, hrefs.series ▸ hp.series, hrefs.characters ▸ hp.speaker,
      hrefs.characters ▸ hp.addressee⟩
    by_cases he : pair = w.1
    · rw [he, upsertAddressPair_pairRows hu, List.length_singleton]
    · rw [pairRows_upsert_of_ne (fun hp => he (Prod.ext_iff.mp hp).2.symm) hu]
      exact hp.single

/-- A pair has one row at most, and its row refers to characters that are stored. -/
structure PairsKept (s : Store) (seriesId : ℕ) : Prop where
  single : ∀ pair, (pairRows s seriesId pair).length ≤ 1
  stored : ∀ pair, ∀ row ∈ pairRows s seriesId pair,
    (s.characters.get? row.speakerCharacterId).isSome = true ∧
      (s.characters.get? row.addresseeCharacterId).isSome = true

variable {bible : SeriesBibleDTO} {flat : List LineAttribution}

theorem resolveCharId_mem {names : Dict Str ℕ} {name : Option Str} {id : ℕ}
    (h : resolveCharId names name = some id) : ∃ key, names.get? key = some id := by
  unfold resolveCharId at h
  split at h
  · cases h
  · cases h
  · split at h
    · exact ⟨_, h⟩
    · exact ⟨_, h⟩
    · next hget =>
      cases h
      exact ⟨_, hget⟩

/-- A name of a loaded Bible leads to a character of the database. -/
theorem resolved_stored {name : Option Str} {id : ℕ} (h : loadSeriesBible s seriesId = .ok bible)
    (hid : resolveCharId (nameToId bible) name = some id) :
    (s.characters.get? id).isSome = true := by
  obtain ⟨key, hget⟩ := resolveCharId_mem hid
  rw [nameToId, Dict.get?_ofList] at hget
  obtain ⟨entry, hlast, rfl⟩ := Option.map_eq_some_iff.mp hget
  obtain ⟨c, hc, rfl⟩ := List.mem_map.mp (List.mem_filter.mp (List.mem_of_getLast? hlast)).1
  have hrow : c ∈ s.characters.rows := by
    unfold loadSeriesBible at h
    split at h
    · cases h
    · cases h
      exact (List.mem_filter.mp hc).1
  rw [show s.characters.get? c.id = some c from Table.mem_iff_get?.mp hrow]
  rfl

theorem allPairs_writable (h : loadSeriesBible s seriesId = .ok bible) (hk : PairsKept s seriesId)
    (hp : pair ∈ allPairs flat bible) : Writable s seriesId pair := by
  have hseries : (s.series.get? seriesId).isSome = true := by
    unfold loadSeriesBible at h
    split at h
    · cases h
    · next row hrow =>
      rw [hrow]
      rfl
  rcases List.mem_append.mp (List.mem_dedup.mp hp) with hattributed | hlisted
  · obtain ⟨attr, -, hpair⟩ := List.mem_filterMap.mp hattributed
    unfold attributedPair at hpair
    split at hpair
    · next hspk haddr =>
      cases hpair
      exact ⟨hk.single _, hseries, resolved_stored h hspk, resolved_stored h haddr⟩
    · cases hpair
  · obtain ⟨row, hrow⟩ := Dict.mem_keys_iff.mp hlisted
    rw [(loaded h).1] at hrow
    have hm := List.mem_of_getLast? hrow
    obtain ⟨-, hspk, haddr⟩ := ident_iff.mp (mem_pairRows.mp hm).2
    obtain ⟨hs, ha⟩ := hk.stored pair row hm
    exact ⟨hk.single pair, hseries, hspk ▸ hs, haddr ▸ ha⟩

theorem Writable.swap (h : Writable s seriesId pair) (hk : PairsKept s seriesId) :
    Writable s seriesId pair.swap :=
  ⟨hk.single _, h.series, h.addressee, h.speaker⟩

/-- With the Bible that its database holds, reconciliation returns. -/
theorem reconcile_returns (order : SetOrder) (settings : TrezarrSettings)
    (h : loadSeriesBible s seriesId = .ok bible) (hk : PairsKept s seriesId) :
    ∃ final resolved, reconcileAttributions order flat bible episodeKey settings s seriesId =
      (final, .ok resolved) := by
  have hstep : ∀ (t : Store) (w : PairWrite), Writable t seriesId w.1 →
      ∃ t', writePair seriesId episodeKey t w = .ok t' ∧
        ∀ v : PairWrite, Writable t seriesId v.1 → Writable t' seriesId v.1 := by
    intro t w hw
    obtain ⟨t', ht, hkept⟩ := writePair_returns hw
    exact ⟨t', ht, fun v hv => hkept v.1 hv⟩
  have hresolved : ∀ w ∈ resolvedWrites order flat bible episodeKey settings,
      Writable s seriesId w.1 := fun w hw => allPairs_writable h hk (mem_resolvedWrites hw).1
  obtain ⟨mid, hmid, hkept⟩ := foldlM_ok_of_step hstep hresolved
  have hadded : ∀ w ∈ (reciprocalAdditions
      (resolvedTerms order flat bible episodeKey settings)).map
        fun a => ((a.1, a.2, none) : PairWrite),
      Writable mid seriesId w.1 := by
    intro w hw
    apply hkept
    obtain ⟨⟨added, terms⟩, ha, rfl⟩ := List.mem_map.mp hw
    obtain ⟨-, hswap, -⟩ := mem_reciprocalAdditions_iff.mp ha
    exact (allPairs_writable h hk hswap).swap hk
  obtain ⟨final, hfinal, -⟩ := foldlM_ok_of_step hstep hadded
  exact ⟨final, reconcile_of_writes (upsertPairs_ok_iff.mpr hmid) (upsertPairs_ok_iff.mpr hfinal)⟩

end Returns

section Orders

variable {order order' : SetOrder} {flat : List LineAttribution} {bible : SeriesBibleDTO}
  {episodeKey : Str} {settings : TrezarrSettings} {s t final : Store} {seriesId : ℕ}
  {resolved : Dict Pair Terms}

theorem reconcile_order_independent (order order' : SetOrder) (flat : List LineAttribution)
    (bible : SeriesBibleDTO) (episodeKey : Str) (settings : TrezarrSettings) (s : Store)
    (seriesId : ℕ) :
    SameOutcome (reconcileAttributions order flat bible episodeKey settings s seriesId)
        (reconcileAttributions order' flat bible episodeKey settings s seriesId) ∧
      (∀ resolved, (reconcileAttributions order flat bible episodeKey settings s seriesId).2 =
        .ok resolved → ReciprocallyClosed resolved) ∧
      (loadSeriesBible s seriesId = .ok bible → PairsKept s seriesId → ∃ final resolved,
        reconcileAttributions order flat bible episodeKey settings s seriesId =
          (final, .ok resolved)) := by
  refine ⟨?_, fun resolved h => reciprocallyClosed h, reconcile_returns order settings⟩
  cases hrun : reconcileAttributions order flat bible episodeKey settings s seriesId with
  | mk final outcome =>
    cases hrun' : reconcileAttributions order' flat bible episodeKey settings s seriesId with
    | mk final' outcome' =>
      cases outcome with
      | ok resolved =>
        obtain ⟨t, m, h, hterms, hrows⟩ := reconcile_reordered order' hrun
        cases hrun'.symm.trans h
        exact ⟨hterms, contents_perm hrows⟩
      | error err =>
        cases outcome' with
        | error err' => trivial
        | ok resolved' =>
          obtain ⟨t, m, h, -⟩ := reconcile_reordered order hrun'
          cases hrun.symm.trans h

end Orders

end Trezarr
