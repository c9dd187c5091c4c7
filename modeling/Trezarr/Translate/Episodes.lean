import Trezarr.Bible.Frames
import Trezarr.Bible.Locks
import Trezarr.Translate.Reconcile

/-! A series as a run of episodes and edits, and the Address Map rows of one pair along it. -/
namespace Trezarr
open Text Rows BibleRow Fallible Runs

/-- What an episode brings to reconciliation besides the stored Bible. -/
structure Episode where
  seriesId : ℕ
  episodeKey : Str
  settings : TrezarrSettings
  order : SetOrder
  flatAttributions : List LineAttribution
  relationshipEvents : List RelationshipEventDTO

namespace Episode

/-- The Bible loaded from the store, with the events this episode's analysis suggested. -/
def bible (e : Episode) (s : Store) : Except StoreError SeriesBibleDTO :=
  (loadSeriesBible s e.seriesId).map fun b => { b with relationshipEvents := e.relationshipEvents }

def outcome (e : Episode) (s : Store) : Store × Except StoreError (Dict Pair Terms) :=
  match e.bible s with
  | .error err => (s, .error err)
  | .ok b => reconcileAttributions e.order e.flatAttributions b e.episodeKey e.settings s e.seriesId

end Episode

inductive BibleStep
  | episode (e : Episode)
  | edit (op : StoreOp)

def BibleStep.step (s : Store) : BibleStep → Store
  | .episode e => (e.outcome s).1
  | .edit op => op.step s

def pairRows (s : Store) (series : ℕ) (pair : Pair) : List AddressMap :=
  findAddressPair s series pair.1 pair.2

/-- The key and the terms of every row of a pair. -/
def pairTerms (s : Store) (series : ℕ) (pair : Pair) : List (ℕ × Option Str × Option Str) :=
  (pairRows s series pair).map fun row => (row.id, row.selfTerm, row.addressTerm)

variable {s s' mid : Store} {series : ℕ} {pair : Pair} {events : List BibleEvent}
  {episodeKey : Option Str} {source : Str} {row row' : AddressMap}

instance : EventFree fun s => pairTerms s series pair := ⟨fun _ _ => rfl⟩

instance : TableFree (fun s => pairTerms s series pair) Series := ⟨fun _ _ => rfl⟩

instance : TableFree (fun s => pairTerms s series pair) Character := ⟨fun _ _ => rfl⟩

instance : TableFree (fun s => pairTerms s series pair) TermDictionary := ⟨fun _ _ => rfl⟩

theorem ident_iff : ident row = (series, pair) ↔ row.seriesId = series ∧
    row.speakerCharacterId = pair.1 ∧ row.addresseeCharacterId = pair.2 :=
  Prod.ext_iff.trans (and_congr_right' Prod.ext_iff)

theorem ident_congr (h : ident row' = ident row) : row'.seriesId = row.seriesId ∧
    row'.speakerCharacterId = row.speakerCharacterId ∧
    row'.addresseeCharacterId = row.addresseeCharacterId :=
  ident_iff.mp (h.trans rfl)

theorem mem_pairRows : row ∈ pairRows s series pair ↔
    row ∈ s.addressMaps.rows ∧ ident row = (series, pair) := by
  rw [ident_iff]
  simp [pairRows, findAddressPair, Table.select]

theorem pairTerms_eq_nil : pairTerms s series pair = [] ↔ pairRows s series pair = [] :=
  List.map_eq_nil_iff

/-- A row rewritten in place shows in its own pair only, and there by its terms only. -/
theorem pairTerms_storeRow (hrow : (table s).get? (Keyed.id row) = some row)
    (hid : Keyed.id row' = Keyed.id row) (hident : ident row' = ident row)
    (hv : ident row = (series, pair) →
      row'.selfTerm = row.selfTerm ∧ row'.addressTerm = row.addressTerm) :
    pairTerms (storeRow s row') series pair = pairTerms s series pair := by
  refine Table.map_select_put (t := s.addressMaps) (a := row') (b := row) (hid ▸ hrow) ?_ ?_
  · obtain ⟨h₁, h₂, h₃⟩ := ident_congr hident
    simp only [h₁, h₂, h₃]
  · intro hp
    obtain ⟨hs, ha⟩ := hv (ident_iff.mpr (by simpa using hp))
    have hid' : row'.id = row.id := hid
    rw [hid', hs, ha]

section Upsert

variable {spk addr : ℕ} {selfTerm addressTerm validFrom : Option Str} {self address : Str}
  {r : AddressMap}

/-- A write to one pair leaves the rows of every other. -/
theorem pairRows_upsert_of_ne {series' : ℕ} (hne : (series', spk, addr) ≠ (series, pair))
    (h : upsertAddressPairInSession s series' spk addr selfTerm addressTerm validFrom episodeKey
      source = .ok (r, events, s')) : pairRows s' series pair = pairRows s series pair := by
  have hout : ∀ row : AddressMap, ident row = (series', spk, addr) →
      decide (row.seriesId = series ∧ row.speakerCharacterId = pair.1 ∧
        row.addresseeCharacterId = pair.2) = false := by
    intro row hrow
    apply decide_eq_false
    intro hp
    exact hne (hrow.symm.trans (ident_iff.mpr hp))
  obtain ⟨-, h⟩ | ⟨found, mid, hfound, hf, rfl⟩ := upsertAddressPair_cases h
  · obtain ⟨mid, ha, hw⟩ := createRow_ok h
    obtain ⟨rfl, rfl⟩ := addRow_ok ha
    have hmaps : s'.addressMaps = _ := hw.table_eq
    rw [pairRows, findAddressPair, hmaps]
    exact Table.select_insert_of_not (hout _ rfl)
  · have hw := applyPairFields_wrote (p := fun _ => True) (by simp [mergeableFields])
      (fun _ _ _ _ _ _ => trivial) hf
    have hm : found ∈ pairRows s series' (spk, addr) := by simp [pairRows, hfound]
    have hident := (mem_pairRows.mp hm).2
    have hget : s.addressMaps.get? (Keyed.id r) = some found := by
      rw [hw.id_eq]
      exact get?_of_select hm
    have hmaps : (storeRow mid r).addressMaps = s.addressMaps.put r := by
      have hmid : mid.addressMaps = s.addressMaps := hw.table_eq
      rw [← hmid]
      rfl
    have hfalse := hout found hident
    have hsame : (pairRows (storeRow mid r) series pair).map id =
        (pairRows s series pair).map id := by
      rw [pairRows, pairRows, findAddressPair, findAddressPair, hmaps]
      exact Table.map_select_put hget ((hout r (hw.ident_eq.trans hident)).trans hfalse.symm)
        fun hp => (Bool.false_ne_true (hfalse.symm.trans hp)).elim
    rwa [List.map_id, List.map_id] at hsame

theorem upsertAddressPair_other {series' : ℕ} (hne : (series', spk, addr) ≠ (series, pair))
    (h : upsertAddressPairInSession s series' spk addr selfTerm addressTerm validFrom episodeKey
      source = .ok (r, events, s')) : pairTerms s' series pair = pairTerms s series pair := by
  rw [pairTerms, pairRows_upsert_of_ne hne h, pairTerms]

/-- Writing the terms a pair already has changes neither. -/
theorem upsertAddressPair_same {id : ℕ}
    (hl : (pairTerms s series (spk, addr)).getLast? = some (id, some self, some address))
    (h : upsertAddressPairInSession s series spk addr (some self) (some address) validFrom episodeKey
      source = .ok (r, events, s')) :
    pairTerms s' series (spk, addr) = pairTerms s series (spk, addr) := by
  obtain ⟨o, ho, h⟩ := bind_ok h
  have hrows : pairRows s series (spk, addr) = o.toList := oneOrNone_ok ho
  rw [pairTerms, hrows] at hl
  cases o with
  | none => simp at hl
  | some row =>
    obtain ⟨⟨row', evts, mid⟩, hf, h⟩ := bind_ok h
    cases h
    have hm : row ∈ pairRows s series (spk, addr) := by simp [hrows]
    simp only [Option.toList_some, List.map_cons, List.map_nil, List.getLast?_singleton,
      Option.some_inj, Prod.mk.injEq] at hl
    obtain ⟨-, hself, haddress⟩ := hl
    have hw := applyPairFields_wrote (p := (· = .validFromEpisode)) (by simp [mergeableFields])
      (by
        intro f v hfv _ _ hne
        simp only [List.mem_cons, Prod.mk.injEq, List.not_mem_nil, or_false] at hfv
        rcases hfv with ⟨rfl, rfl⟩ | ⟨rfl, rfl⟩ | ⟨rfl, rfl⟩
        · exact (hne hself.symm).elim
        · exact (hne haddress.symm).elim
        · rfl) hf
    have hrow := hw.table_eq ▸ get?_of_select hm
    have hst : pairTerms (storeRow mid r) series (spk, addr) =
        pairTerms mid series (spk, addr) :=
      pairTerms_storeRow hrow hw.id_eq hw.ident_eq fun _ =>
        ⟨hw.value_eq .selfTerm (by simp), hw.value_eq .addressTerm (by simp)⟩
    exact hst.trans (hw.frame (F := fun s => pairTerms s series (spk, addr)))

end Upsert

/-- A sequence of pair writes that repeats what the pair has keeps its rows' terms. -/
theorem upsertPairs_pairTerms {series' : ℕ} {key : Str} {writes : List PairWrite}
    (hw : ∀ w ∈ writes, (series', w.1) = (series, pair) →
      ∃ id, (pairTerms s series pair).getLast? = some (id, some w.2.1.1, some w.2.1.2)) :
    pairTerms (upsertPairs series' key s writes).1 series pair = pairTerms s series pair := by
  induction writes generalizing s with
  | nil => rfl
  | cons w writes ih =>
    obtain ⟨q, terms, validFrom⟩ := w
    unfold upsertPairs
    split
    · rfl
    · next r events s₁ h =>
      have hone : pairTerms s₁ series pair = pairTerms s series pair := by
        by_cases hq : (series', q) = (series, pair)
        · obtain ⟨id, hl⟩ := hw (q, terms, validFrom) (by simp) hq
          obtain ⟨rfl, rfl⟩ := Prod.mk.injEq .. ▸ hq
          exact upsertAddressPair_same hl h
        · exact upsertAddressPair_other hq h
      rw [← hone]
      refine ih fun w hm hq => ?_
      rw [hone]
      exact hw w (List.mem_cons_of_mem _ hm) hq

/-- An episode changes a pair's rows through its writes and the reciprocals it adds. -/
theorem reconcile_pairTerms {order : SetOrder} {flatAttributions : List LineAttribution}
    {bible : SeriesBibleDTO} {key : Str} {settings : TrezarrSettings} {series' : ℕ}
    (hw : ∀ w ∈ resolvedWrites order flatAttributions bible key settings,
      (series', w.1) = (series, pair) →
        ∃ id, (pairTerms s series pair).getLast? = some (id, some w.2.1.1, some w.2.1.2))
    (ha : ∀ a ∈ reciprocalAdditions (resolvedTerms order flatAttributions bible key settings),
      (series', a.1) ≠ (series, pair)) :
    pairTerms (reconcileAttributions order flatAttributions bible key settings s series').1 series
      pair = pairTerms s series pair := by
  have h₁ : pairTerms (upsertPairs series' key s _).1 series pair = pairTerms s series pair :=
    upsertPairs_pairTerms hw
  unfold reconcileAttributions
  split
  · next s₁ err h => rw [← h₁, h]
  · next s₁ u h =>
    rw [h] at h₁
    have h₂ : pairTerms (upsertPairs series' key s₁ ((reciprocalAdditions (resolvedTerms order
        flatAttributions bible key settings)).map fun a => (a.1, a.2, none))).1 series pair =
        pairTerms s₁ series pair := by
      refine upsertPairs_pairTerms fun w hm hq => ?_
      obtain ⟨a, hmem, rfl⟩ := List.mem_map.mp hm
      exact (ha a hmem hq).elim
    rw [← h₁, ← h₂]
    dsimp only
    split
    · next h => rw [h]
    · next h => rw [h]

theorem existingMap_get? {e : Episode} {b : SeriesBibleDTO} (h : e.bible s = .ok b) :
    (existingMap b).get? pair = (pairRows s e.seriesId pair).getLast? := by
  obtain ⟨b, hb, rfl⟩ := map_ok h
  unfold loadSeriesBible at hb
  split at hb
  · cases hb
  · cases hb
    simp only [existingMap, Dict.get?_ofList, List.filter_map, List.getLast?_map, Option.map_map]
    simp only [Function.comp_def, Option.map_id', pairRows, findAddressPair, Table.select,
      List.filter_filter]
    congr 2
    funext row
    simp [Prod.ext_iff, Bool.and_comm]

/-- An edit that is neither a write of the pair's terms nor aimed at one of its rows. -/
def SparesPair (series : ℕ) (pair : Pair) (s : Store) : StoreOp → Prop
  | .upsertAddressPair series' spk addr _ _ _ _ _ => (series', spk, addr) ≠ (series, pair)
  | .applyHumanEditAddressPair id _ _ _ _ => ∀ row ∈ pairRows s series pair, row.id ≠ id
  | _ => True

theorem exec_pairTerms {op : StoreOp} (hs : SparesPair series pair s op)
    (h : op.exec s = .ok s') : pairTerms s' series pair = pairTerms s series pair := by
  cases op with
  | upsertCharacter =>
    obtain ⟨⟨_, _, _⟩, hu, rfl⟩ := map_ok h
    exact upsertCharacter_frame (F := fun s => pairTerms s series pair) hu
  | upsertTerm =>
    obtain ⟨⟨_, _, _⟩, hu, rfl⟩ := map_ok h
    exact upsertTerm_frame (F := fun s => pairTerms s series pair) hu
  | upsertAddressPair =>
    obtain ⟨⟨_, _, _⟩, hu, rfl⟩ := map_ok h
    exact upsertAddressPair_other hs hu
  | mergeInferred => exact mergeInferred_frame (F := fun s => pairTerms s series pair) h
  | applyHumanEditCharacter =>
    obtain ⟨_, -, h⟩ := bind_ok h
    obtain ⟨row, hr, h⟩ := bind_ok h
    exact editRow_frame (F := fun s => pairTerms s series pair) (rowOfSeries_self hr) h
  | applyHumanEditTerm => exact applyHumanEditTerm_frame (F := fun s => pairTerms s series pair) h
  | applyHumanEditSeries =>
    obtain ⟨_, -, h⟩ := bind_ok h
    obtain ⟨row, hr, h⟩ := bind_ok h
    exact editRow_frame (F := fun s => pairTerms s series pair) (rowOfSeries_self hr) h
  | applyHumanEditAddressPair id =>
    obtain ⟨row, row', mid, events, hrow, hid, hident, rfl, rfl⟩ := applyHumanEditAddressPair_ok h
    have hkey : Keyed.id row = id := Table.id_of_get? hrow
    have ht : (table { s with bibleEvents := s.bibleEvents ++ events }).get? (Keyed.id row) =
        some row := by
      rw [table_events, hkey, hrow]
    refine pairTerms_storeRow ht hid hident fun hi => ?_
    exact (hs row (mem_pairRows.mpr ⟨Table.mem_of_get? hrow, hi⟩) hkey).elim

theorem edit_pairTerms {op : StoreOp} (hs : SparesPair series pair s op) :
    pairTerms (op.step s) series pair = pairTerms s series pair :=
  related_getD (R := fun s s' => pairTerms s' series pair = pairTerms s series pair) rfl
    fun _ h => exec_pairTerms hs h

end Trezarr
