import Trezarr.Bible.NameLocks
import Trezarr.Translate.Episodes

/-! What a merge does to pairs that have their terms, one call after the other. -/
namespace Trezarr
open Text Rows BibleRow Fallible Runs

/-- Every row with both terms keeps them. -/
def Affirmed (s s' : Store) : Prop :=
  ∀ row ∈ s.addressMaps.rows, row.selfTerm ≠ none → row.addressTerm ≠ none →
    ∃ row' ∈ s'.addressMaps.rows, row'.id = row.id ∧ row'.selfTerm = row.selfTerm ∧
      row'.addressTerm = row.addressTerm

instance (s s' : Store) : Decidable (Affirmed s s') :=
  inferInstanceAs (Decidable (∀ _ ∈ _, _))

/-- A row with both terms has, where it is not locked, those of the entry. -/
def TermsStand (row : AddressMap) (p : AddressMapInference) : Prop :=
  row.selfTerm ≠ none → row.addressTerm ≠ none →
    (.selfTerm ∉ row.lockedFields → row.selfTerm = some p.selfTerm) ∧
      (.addressTerm ∉ row.lockedFields → row.addressTerm = some p.addressTerm)

instance (row : AddressMap) (p : AddressMapInference) : Decidable (TermsStand row p) :=
  inferInstanceAs (Decidable (_ → _))

def pairOf (names : Dict Str ℕ) (p : AddressMapInference) : Option Pair :=
  match lookupName names p.speakerName, lookupName names p.addresseeName with
  | some spk, some addr => some (spk, addr)
  | _, _ => none

section Calls

variable {s s' : Store} {series spk addr : ℕ} {self address validFrom key : Option Str}
  {source : Str} {r : AddressMap} {events : List BibleEvent}

/-- The row a pair call leaves: the pair's, new or rewritten where it is not locked. -/
theorem upsertAddressPair_rows
    (h : upsertAddressPairInSession s series spk addr self address validFrom key source =
      .ok (r, events, s')) :
    ident r = (series, spk, addr) ∧
      (∀ row ∈ s'.addressMaps.rows, row = r ∨ row ∈ s.addressMaps.rows) ∧
      ∀ row ∈ s.addressMaps.rows, row ∈ s'.addressMaps.rows ∨
        row ∈ pairRows s series (spk, addr) ∧ r ∈ s'.addressMaps.rows ∧ r.id = row.id ∧
          r.lockedFields = row.lockedFields ∧ (∀ f ∈ row.lockedFields, value r f = value row f) ∧
          (self = none → r.selfTerm = row.selfTerm) ∧
          (address = none → r.addressTerm = row.addressTerm) := by
  obtain ⟨-, h⟩ | ⟨found, mid, hfound, hf, rfl⟩ := upsertAddressPair_cases h
  · obtain ⟨mid, ha, hw⟩ := createRow_ok h
    obtain ⟨hr, hs⟩ := addRow_ok ha
    have hmaps : s'.addressMaps = mid.addressMaps := hw.table_eq
    have hrows : s'.addressMaps.rows = s.addressMaps.rows ++ [r] := by
      rw [hmaps, hs, hr]
      rfl
    refine ⟨by rw [hr]; rfl, fun row hrow => ?_, fun row hrow => Or.inl ?_⟩
    · rw [hrows] at hrow
      rcases List.mem_append.mp hrow with hrow | hrow
      · exact Or.inr hrow
      · exact Or.inl (List.mem_singleton.mp hrow)
    · rw [hrows]
      exact List.mem_append_left _ hrow
  · have hm : found ∈ pairRows s series (spk, addr) := by simp [pairRows, hfound]
    obtain ⟨hrow, hident⟩ := mem_pairRows.mp hm
    have hw : Wrote (fun f => f ∉ found.lockedFields ∧ (f = .selfTerm → self ≠ none) ∧
        (f = .addressTerm → address ≠ none)) found s r events mid := by
      refine applyPairFields_wrote (by simp [mergeableFields]) (fun f v hfv hv hl _ => ⟨hl, ?_⟩) hf
      simp only [List.mem_cons, Prod.mk.injEq, List.not_mem_nil, or_false] at hfv
      rcases hfv with ⟨rfl, rfl⟩ | ⟨rfl, rfl⟩ | ⟨rfl, rfl⟩ <;> simp [hv]
    have hmaps : mid.addressMaps = s.addressMaps := hw.table_eq
    have hid : r.id = found.id := hw.id_eq
    have hget : s.addressMaps.get? (Keyed.id r) = some found := by
      rw [hw.id_eq]
      exact Table.mem_iff_get?.mp hrow
    have hput : (storeRow mid r).addressMaps = s.addressMaps.put r := by rw [← hmaps]; rfl
    rw [hput]
    refine ⟨hw.ident_eq.trans hident, fun row hmem => ?_, fun row hmem => ?_⟩
    · obtain ⟨old, hold, he⟩ := List.mem_map.mp hmem
      by_cases hsame : Keyed.id old = Keyed.id r
      · exact Or.inl (he.symm.trans (if_pos hsame))
      · rw [if_neg hsame] at he
        exact Or.inr (he ▸ hold)
    · have hnew := List.mem_map_of_mem
        (f := fun b => if Keyed.id b = Keyed.id r then r else b) hmem
      by_cases hsame : Keyed.id row = Keyed.id r
      · obtain rfl := Table.eq_of_id_eq hget hmem hsame
        rw [if_pos hsame] at hnew
        refine Or.inr ⟨hm, hnew, hid, hw.locked_eq, fun f hl => hw.value_eq f fun hp => hp.1 hl,
          fun hn => hw.value_eq .selfTerm fun hp => hp.2.1 rfl hn,
          fun hn => hw.value_eq .addressTerm fun hp => hp.2.2 rfl hn⟩
      · rw [if_neg hsame] at hnew
        exact Or.inl hnew

/-- Terms that are given stand in the row, new or old, unless they are locked. -/
theorem upsertAddressPair_given {self address : Str}
    (h : upsertAddressPairInSession s series spk addr (some self) (some address) validFrom key
      source = .ok (r, events, s')) :
    (.selfTerm ∉ r.lockedFields → r.selfTerm = some self) ∧
      (.addressTerm ∉ r.lockedFields → r.addressTerm = some address) := by
  obtain ⟨-, h⟩ | ⟨found, mid, -, hf, -⟩ := upsertAddressPair_cases h
  · obtain ⟨mid, ha, -⟩ := createRow_ok h
    obtain ⟨rfl, -⟩ := addRow_ok ha
    exact ⟨fun _ => rfl, fun _ => rfl⟩
  · have hm : ∀ f ∈ [(Field.selfTerm, some self), (.addressTerm, some address),
        (.validFromEpisode, validFrom)], f.1 ∈ mergeableFields .addressMap := by
      simp [mergeableFields]
    have hw := applyPairFields_wrote (p := fun _ => True) hm (fun _ _ _ _ _ _ => trivial) hf
    have hlocked : r.lockedFields = found.lockedFields := hw.locked_eq
    rw [hlocked]
    exact ⟨fun hopen => applyPairFields_value hm (by simp) (by simp) hopen hf,
      fun hopen => applyPairFields_value hm (by simp) (by simp) hopen hf⟩

end Calls

section Loop

variable (down : MergeCall → Bool) (seriesId : ℕ) (analysis : BibleAnalysis) (episodeKey : Str)
  (s : Store)

def pairStep (st : Merging) (x : AddressMapInference × ℕ) : Merging :=
  mergePairRow down seriesId episodeKey (existingPairs down seriesId analysis episodeKey s) st x.1 x.2

/-- Where the pair calls of a merge begin. -/
def pairStart : Merging := { namesLocked down seriesId analysis episodeKey s with failed := 0 }

/-- No pair call of the merge gives other terms to a pair that has both. -/
def CallsAffirm : Prop :=
  LocksNames down seriesId analysis episodeKey s →
    Along (pairStep down seriesId analysis episodeKey s)
      (fun st x => Affirmed st.store (pairStep down seriesId analysis episodeKey s st x).store)
      (pairStart down seriesId analysis episodeKey s) analysis.addressMap.zipIdx

/-- The call for the entry does not fail, and the merge takes the pair to be new. -/
def WritesTerms (x : AddressMapInference × ℕ) (pair : Pair) : Prop :=
  down (.addressPair x.2) = false ∧
    pair ∈ pairOf (pairStart down seriesId analysis episodeKey s).nameToId x.1 ∧
    pair ∉ existingPairs down seriesId analysis episodeKey s

/-- What an entry gives a pair the pair has already, and every entry for the pair gives the same. -/
def PairsAgree : Prop :=
  LocksNames down seriesId analysis episodeKey s → ∀ x ∈ analysis.addressMap.zipIdx,
    ∀ pair ∈ pairOf (pairStart down seriesId analysis episodeKey s).nameToId x.1,
      WritesTerms down seriesId analysis episodeKey s x pair →
        (∀ row ∈ pairRows s seriesId pair, TermsStand row x.1) ∧
          ∀ y ∈ analysis.addressMap.zipIdx, WritesTerms down seriesId analysis episodeKey s y pair →
            y.1.selfTerm = x.1.selfTerm ∧ y.1.addressTerm = x.1.addressTerm

instance : Decidable (CallsAffirm down seriesId analysis episodeKey s) :=
  inferInstanceAs (Decidable (_ → _))

instance (x : AddressMapInference × ℕ) (pair : Pair) :
    Decidable (WritesTerms down seriesId analysis episodeKey s x pair) :=
  inferInstanceAs (Decidable (_ ∧ _))

instance : Decidable (PairsAgree down seriesId analysis episodeKey s) :=
  inferInstanceAs (Decidable (_ → _))

variable {down seriesId analysis episodeKey s}
variable {st : Merging} {x : AddressMapInference × ℕ}

theorem pairStep_cases (down : MergeCall → Bool) (seriesId : ℕ) (analysis : BibleAnalysis)
    (episodeKey : Str) (s : Store) (st : Merging) (x : AddressMapInference × ℕ) :
    (pairStep down seriesId analysis episodeKey s st x).nameToId = st.nameToId ∧
    ((pairStep down seriesId analysis episodeKey s st x).store = st.store ∨
      ∃ pair row events, pairOf st.nameToId x.1 = some pair ∧ down (.addressPair x.2) = false ∧
        let given (text : Str) :=
          if pair ∈ existingPairs down seriesId analysis episodeKey s then none else some text
        upsertAddressPairInSession st.store seriesId pair.1 pair.2 (given x.1.selfTerm)
          (given x.1.addressTerm) (given episodeKey) (some episodeKey) "inference" =
            .ok (row, events, (pairStep down seriesId analysis episodeKey s st x).store)) := by
  unfold pairStep mergePairRow
  split
  · next spk addr hspk haddr =>
    have hpair : pairOf st.nameToId x.1 = some (spk, addr) := by
      unfold pairOf
      rw [hspk, haddr]
    dsimp only
    split
    · next row events s' ha =>
      obtain ⟨hup, hok⟩ := attempt_ok ha
      exact ⟨rfl, Or.inr ⟨(spk, addr), row, events, hpair, hup, hok⟩⟩
    · exact ⟨rfl, Or.inl rfl⟩
  · exact ⟨rfl, Or.inl rfl⟩

variable (down seriesId analysis episodeKey s) in
/-- The names resolve as they did, and the rows of a pair have what its entries give. -/
def PairsStand (st : Merging) : Prop :=
  st.nameToId = (pairStart down seriesId analysis episodeKey s).nameToId ∧
    ∀ x ∈ analysis.addressMap.zipIdx, ∀ pair,
      WritesTerms down seriesId analysis episodeKey s x pair →
        ∀ row ∈ pairRows st.store seriesId pair, TermsStand row x.1

theorem pairStep_affirms (hagree : PairsAgree down seriesId analysis episodeKey s)
    (hl : LocksNames down seriesId analysis episodeKey s)
    (hx : x ∈ analysis.addressMap.zipIdx) (h : PairsStand down seriesId analysis episodeKey s st) :
    Affirmed st.store (pairStep down seriesId analysis episodeKey s st x).store ∧
      PairsStand down seriesId analysis episodeKey s
        (pairStep down seriesId analysis episodeKey s st x) := by
  obtain ⟨hnames, hstand⟩ := h
  obtain ⟨hnames', hs | ⟨pair, r, events, hpair, hup, h⟩⟩ :=
    pairStep_cases down seriesId analysis episodeKey s st x
  · refine ⟨?_, hnames'.trans hnames, ?_⟩
    · rw [hs]
      exact fun row hrow _ _ => ⟨row, hrow, rfl, rfl, rfl⟩
    · rw [hs]
      exact hstand
  dsimp only at h
  obtain ⟨hident, hnew, hold⟩ := upsertAddressPair_rows h
  -- a row of a new pair was there before or is the one the call leaves
  have hrows : ∀ pair', ∀ row ∈ pairRows
      (pairStep down seriesId analysis episodeKey s st x).store seriesId pair',
        pair' = pair ∧ row = r ∨ row ∈ pairRows st.store seriesId pair' := by
    intro pair' row hrow
    obtain ⟨hmem, hi⟩ := mem_pairRows.mp hrow
    rcases hnew row hmem with rfl | hmem
    · exact Or.inl ⟨(Prod.ext_iff.mp (hi.symm.trans hident)).2, rfl⟩
    · exact Or.inr (mem_pairRows.mpr ⟨hmem, hi⟩)
  by_cases hexists : pair ∈ existingPairs down seriesId analysis episodeKey s
  · rw [if_pos hexists, if_pos hexists] at hold
    refine ⟨fun row hrow _ _ => ?_, hnames'.trans hnames, fun y hy pair' hw row hrow => ?_⟩
    · obtain hrow | ⟨-, hr, hid, -, -, hself, haddress⟩ := hold row hrow
      · exact ⟨row, hrow, rfl, rfl, rfl⟩
      · exact ⟨r, hr, hid, hself rfl, haddress rfl⟩
    · obtain ⟨rfl, -⟩ | hrow := hrows pair' row hrow
      · exact (hw.2.2 hexists).elim
      · exact hstand y hy pair' hw row hrow
  · rw [if_neg hexists, if_neg hexists] at h
    obtain ⟨hself, haddress⟩ := upsertAddressPair_given h
    rw [hnames] at hpair
    have hwrites : WritesTerms down seriesId analysis episodeKey s x pair := ⟨hup, hpair, hexists⟩
    refine ⟨fun row hrow hs ha => ?_, hnames'.trans hnames, fun y hy pair' hw row hrow => ?_⟩
    · obtain hrow | ⟨hmem, hr, hid, hlocked, hkept, -⟩ := hold row hrow
      · exact ⟨row, hrow, rfl, rfl, rfl⟩
      · obtain ⟨hself', haddress'⟩ := hstand x hx pair hwrites row hmem hs ha
        rw [hlocked] at hself haddress
        refine ⟨r, hr, hid, ?_, ?_⟩
        · by_cases hf : .selfTerm ∈ row.lockedFields
          · exact hkept .selfTerm hf
          · exact (hself hf).trans (hself' hf).symm
        · by_cases hf : .addressTerm ∈ row.lockedFields
          · exact hkept .addressTerm hf
          · exact (haddress hf).trans (haddress' hf).symm
    · obtain ⟨rfl, rfl⟩ | hrow := hrows pair' row hrow
      · obtain ⟨hs, ha⟩ := (hagree hl x hx pair' hpair hwrites).2 y hy hw
        intro _ _
        rw [hs, ha]
        exact ⟨hself, haddress⟩
      · exact hstand y hy pair' hw row hrow

instance : EventFree Store.addressMaps := ⟨fun _ _ => rfl⟩

instance : TableFree Store.addressMaps Series := ⟨fun _ _ => rfl⟩

instance : TableFree Store.addressMaps Character := ⟨fun _ _ => rfl⟩

instance : TableFree Store.addressMaps TermDictionary := ⟨fun _ _ => rfl⟩

/-- Nothing before the pair calls writes to the pairs. -/
theorem pairStart_addressMaps :
    (pairStart down seriesId analysis episodeKey s).store.addressMaps = s.addressMaps := by
  have hearly : (termsMerged down seriesId analysis episodeKey s).store.addressMaps =
      s.addressMaps := (early_of_frame fun h => upsertTerm_frame h).termsMerged
  exact lockNames_frame.trans hearly

theorem callsAffirm_of_agree (hagree : PairsAgree down seriesId analysis episodeKey s) :
    CallsAffirm down seriesId analysis episodeKey s := by
  intro hl
  have hstart : PairsStand down seriesId analysis episodeKey s
      (pairStart down seriesId analysis episodeKey s) := by
    refine ⟨rfl, fun x hx pair hw => ?_⟩
    have hrows : pairRows (pairStart down seriesId analysis episodeKey s).store seriesId pair =
        pairRows s seriesId pair := by
      rw [pairRows, findAddressPair, pairStart_addressMaps]
      rfl
    rw [hrows]
    exact (hagree hl x hx pair hw.2.1 hw).1
  exact along_of_invariant (fun _ _ hi hx => (pairStep_affirms hagree hl hx hi).2)
    (fun _ _ hi hx => (pairStep_affirms hagree hl hx hi).1) hstart along_mem

theorem Affirmed.refl : Affirmed s s := fun row hrow _ _ => ⟨row, hrow, rfl, rfl, rfl⟩

theorem Affirmed.trans {a b c : Store} (h : Affirmed a b) (h' : Affirmed b c) : Affirmed a c := by
  intro row hrow hs ha
  obtain ⟨row₁, hrow₁, hid₁, hs₁, ha₁⟩ := h row hrow hs ha
  obtain ⟨row₂, hrow₂, hid₂, hs₂, ha₂⟩ := h' row₁ hrow₁ (hs₁ ▸ hs) (ha₁ ▸ ha)
  exact ⟨row₂, hrow₂, hid₂.trans hid₁, hs₂.trans hs₁, ha₂.trans ha₁⟩

theorem affirmed_of_eq {a b : Store} (h : b.addressMaps = a.addressMaps) : Affirmed a b := by
  intro row hrow _ _
  exact ⟨row, h ▸ hrow, rfl, rfl, rfl⟩

/-- When the calls affirm the pairs the merge does. -/
theorem merge_affirms (settings : TrezarrSettings)
    (h : CallsAffirm down seriesId analysis episodeKey s) :
    Affirmed s (mergeBibleAnalysis down seriesId analysis episodeKey settings s).1 := by
  have hearly : RespectedEarly fun s s' => s'.addressMaps = s.addressMaps :=
    early_of_frame fun h => upsertTerm_frame h
  obtain ⟨-, hend⟩ | ⟨hl, hend⟩ := merge_cases (s := s) settings rfl
  · rcases hend with hend | hend
    · rw [hend]
      exact affirmed_of_eq hearly.charactersMerged
    · rw [hend]
      exact affirmed_of_eq hearly.termsMerged
  · have hstart : Affirmed s (pairStart down seriesId analysis episodeKey s).store :=
      affirmed_of_eq pairStart_addressMaps
    have hloop : Affirmed (pairStart down seriesId analysis episodeKey s).store
        (pairsMerged down seriesId analysis episodeKey s).store :=
      related_run (R := fun a b : Merging => Affirmed a.store b.store) (fun _ => .refl)
        (fun _ _ _ => .trans) (fun _ _ hx => hx) (h hl)
    have hpairs := hstart.trans hloop
    rcases hend with hend | hend
    · rw [hend]
      exact hpairs
    · rw [hend]
      exact hpairs.trans (affirmed_of_eq (mergeEvents_frame fun _ _ => rfl))

end Loop

def mergeStep (s : Store) (x : ℕ × EpisodeMerge) : Store := x.2.step x.1 s

/-- Pass 1 leaves stored pairs alone along every run whose merges agree about their pairs. -/
theorem pass_one_affirms_pairs (s : Store) (merges : List (ℕ × EpisodeMerge))
    (h : Along mergeStep (fun s x => PairsAgree x.2.down x.1 x.2.analysis x.2.episodeKey s) s
      merges) :
    Along mergeStep (fun s x => CallsAffirm x.2.down x.1 x.2.analysis x.2.episodeKey s) s merges ∧
      ∀ xs ys, merges = xs ++ ys → Affirmed (run mergeStep s xs) (run mergeStep s merges) := by
  refine ⟨h.mono fun _ _ => callsAffirm_of_agree, ?_⟩
  rintro xs ys rfl
  rw [run_append]
  exact related_run (R := Affirmed) (fun _ => .refl) (fun _ _ _ => .trans)
    (fun _ x hx => merge_affirms x.2.settings (callsAffirm_of_agree hx)) (along_append.mp h).2

def hanAndMei (pairs : List AddressMapInference) : ℕ × EpisodeMerge :=
  (1, { down := fun _ => false
        analysis := { characters := [{ originalLatinName := "Han" }, { originalLatinName := "Mei" }]
                      addressMap := pairs }
        episodeKey := "S01E01"
        settings := {} })

def fellowStore : Store where
  series := ⟨[{ id := 1 }], nodup_firstSeries⟩

theorem han_affirms_mei :
    Along mergeStep (fun s x => CallsAffirm x.2.down x.1 x.2.analysis x.2.episodeKey s) fellowStore
        [hanAndMei [⟨"Han", "Mei", "huynh", "muội"⟩], hanAndMei [⟨"Elder Han", "Mei", "ta", "nàng"⟩]] ∧
      ∀ xs ys, [hanAndMei [⟨"Han", "Mei", "huynh", "muội"⟩],
          hanAndMei [⟨"Elder Han", "Mei", "ta", "nàng"⟩]] = xs ++ ys →
        Affirmed (run mergeStep fellowStore xs) (run mergeStep fellowStore
          [hanAndMei [⟨"Han", "Mei", "huynh", "muội"⟩],
            hanAndMei [⟨"Elder Han", "Mei", "ta", "nàng"⟩]]) :=
  pass_one_affirms_pairs _ _ (by decide)

/-- One analysis lists a new pair twice, the second time by an honorific. -/
theorem han_listed_twice : ¬ Along mergeStep
    (fun s x => CallsAffirm x.2.down x.1 x.2.analysis x.2.episodeKey s) fellowStore
      [hanAndMei [⟨"Han", "Mei", "huynh", "muội"⟩, ⟨"Elder Han", "Mei", "ta", "nàng"⟩]] := by
  decide

end Trezarr
