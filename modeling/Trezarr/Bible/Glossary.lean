import Trezarr.Bible.NameLocks

/-! A term that has a rendering keeps it, whatever episodes are merged after. -/
namespace Trezarr
open Text Rows BibleRow Fallible Runs

/-- What happens to the Bible: episodes are merged, and curators edit it. -/
inductive GlossaryAct
  | merge (down : MergeCall → Bool) (seriesId : ℕ) (analysis : BibleAnalysis) (episodeKey : Str)
      (settings : TrezarrSettings)
  | humanEdit (op : StoreOp)

namespace GlossaryAct

def step (s : Store) : GlossaryAct → Store
  | .merge down seriesId analysis episodeKey settings =>
    (mergeBibleAnalysis down seriesId analysis episodeKey settings s).1
  | .humanEdit op => op.step s

/-- Of the calls of a merge only the reading of the terms must not fail; a curator does not edit
this term. -/
def Spares (id : ℕ) (s : Store) : GlossaryAct → Prop
  | .merge down seriesId analysis episodeKey _ =>
    LocksNames down seriesId analysis episodeKey s → TermsRead down seriesId s
  | .humanEdit op => op.IsHumanEdit ∧ ¬ HumanEdits s op (.termDictionary, id)

end GlossaryAct

/-- The term keeps its row and, if it is not blank, its rendering. -/
def KeepsRendering (id : ℕ) (s s' : Store) : Prop :=
  ∀ row, s.termDictionary.get? id = some row → strip row.vietnameseRendering ≠ [] →
    ∃ row', s'.termDictionary.get? id = some row' ∧
      row'.vietnameseRendering = row.vietnameseRendering

variable {id : ℕ} {s s' mid : Store} {row : TermDictionary} {source : Str}
  {vr category key : Option Str}

theorem keepsRendering_of_eq (h : s'.termDictionary = s.termDictionary) : KeepsRendering id s s' :=
  fun row hrow _ => ⟨row, h ▸ hrow, rfl⟩

theorem KeepsRendering.trans (h : KeepsRendering id s mid) (h' : KeepsRendering id mid s') :
    KeepsRendering id s s' := by
  intro row hrow hne
  obtain ⟨row₁, hrow₁, he₁⟩ := h row hrow hne
  obtain ⟨row₂, hrow₂, he₂⟩ := h' row₁ hrow₁ (he₁ ▸ hne)
  exact ⟨row₂, hrow₂, he₂.trans he₁⟩

theorem mem_nonNull {fields : List (Field × Option Str)} {f : Field}
    (h : f ∈ (nonNull fields).map Prod.fst) : ∃ text, (f, some text) ∈ fields := by
  obtain ⟨⟨g, v⟩, hm, rfl⟩ := List.mem_map.mp h
  obtain ⟨hm, hsome⟩ := List.mem_filter.mp hm
  obtain ⟨text, rfl⟩ := Option.isSome_iff_exists.mp hsome
  exact ⟨text, hm⟩

/-- A rendering that is there is locked or suppresses the inferred one. -/
theorem rendering_not_inferred (hne : strip row.vietnameseRendering ≠ []) :
    ¬ (.vietnameseRendering ∈ (inferredTerm row vr category "inference").map Prod.fst ∧
      .vietnameseRendering ∉ lockedFields row) := by
  rintro ⟨hm, hopen⟩
  have hopen' : Field.vietnameseRendering ∉ row.lockedFields := hopen
  obtain ⟨text, hm⟩ := mem_nonNull hm
  have hgiven : (if renderingSuppressed row vr "inference" then none else vr) = some text := by
    rcases List.mem_cons.mp hm with he | he
    · exact (Prod.ext_iff.mp he).2.symm
    · simp at he
  cases hs : renderingSuppressed row vr "inference" with
  | true =>
    rw [hs] at hgiven
    cases hgiven
  | false =>
    rw [hs] at hgiven
    have hvr : vr = some text := hgiven
    rw [renderingSuppressed, hvr] at hs
    simp [hne, hopen'] at hs

theorem upsertTerm_keepsRendering {series : ℕ} {sourceTerm : Str} {r : TermDictionary}
    {events : List BibleEvent}
    (h : upsertTermInSession s series sourceTerm vr category key "inference" =
      .ok (r, events, s')) : KeepsRendering id s s' := by
  obtain ⟨-, h⟩ | ⟨found, suppressed, mid, hm, hs, h⟩ := upsertTerm_cases h
  · intro row hrow _
    obtain ⟨mid, ha, hw⟩ := createRow_ok h
    obtain ⟨-, rfl⟩ := addRow_ok ha
    refine ⟨row, ?_, rfl⟩
    rw [hw.frame (F := Store.termDictionary)]
    exact Table.get?_of_rows_append rfl hrow
  · have hget : s.termDictionary.get? found.id = some found := get?_of_select hm
    have hw := suppressedEvents_wrote hs
    obtain ⟨-, -, rfl⟩ | ⟨merged, h, -⟩ := h
    · exact keepsRendering_of_eq hw.frame
    · obtain ⟨last, hw', rfl⟩ := mergeInferredInSession_wrote h
      intro row hrow hne
      have hlast : last.termDictionary = s.termDictionary := hw'.table_eq.trans hw.table_eq
      change ∃ row', (last.termDictionary.put r).get? id = some row' ∧ _
      rw [hlast, Table.get?_put]
      by_cases hid : id = Keyed.id r
      · have hfound : found = row := by
          have hids : found.id = id := (hid.trans hw'.id_eq).symm
          rw [hids, hrow] at hget
          exact (Option.some_inj.mp hget).symm
        subst hfound
        refine ⟨r, by rw [if_pos hid, hrow]; rfl, ?_⟩
        exact Option.some_inj.mp (hw'.value_eq .vietnameseRendering (rendering_not_inferred hne))
      · exact ⟨row, by rw [if_neg hid, hrow], rfl⟩

theorem rendering_respected (id : ℕ) : Respected (KeepsRendering id) where
  refl _ := keepsRendering_of_eq rfl
  trans _ _ _ := KeepsRendering.trans
  register h := keepsRendering_of_eq (mergeInferred_series_frame h)
  character h := keepsRendering_of_eq (upsertCharacter_frame h)
  term h := upsertTerm_keepsRendering h
  pair h := keepsRendering_of_eq (upsertAddressPair_frame h)
  event _ _ := keepsRendering_of_eq rfl

/-- With the terms read, the names that are locked have no row yet. -/
theorem lockNames_keepsRendering {down : MergeCall → Bool} {seriesId : ℕ} {analysis : BibleAnalysis}
    (hread : TermsRead down seriesId s) :
    KeepsRendering id s (lockNames down seriesId analysis s) := by
  refine lockNames_related (fun _ => keepsRendering_of_eq rfl) (fun _ _ _ => KeepsRendering.trans)
    fun st _ x hx hsame => ?_
  have hnone : findTermExact st seriesId x.1.sourceTerm = [] :=
    hsame.trans (planned_unstored hread (fst_mem_of_mem_zipIdx hx))
  obtain hs | ⟨-, hs⟩ | ⟨-, -, row, hrow, -⟩ := lockName_cases down seriesId st x.1 x.2
  · rw [hs]
    exact keepsRendering_of_eq rfl
  · exact fun row hrow _ => ⟨row, Table.get?_of_rows_append hs hrow, rfl⟩
  · rw [hnone] at hrow
    cases hrow

theorem humanEdit_keepsRendering {op : StoreOp} (hop : op.IsHumanEdit)
    (hn : ¬ HumanEdits s op (.termDictionary, id)) : KeepsRendering id s (op.step s) := by
  refine related_getD (keepsRendering_of_eq rfl) fun s' h => ?_
  obtain ⟨ref, ht, ho⟩ := humanEdit_touches hop h
  intro row hrow _
  have hview : s.view (.termDictionary, id) = some (viewRow row) := congrArg (Option.map viewRow) hrow
  by_cases hr : (.termDictionary, id) = ref
  · subst hr
    rcases ho with ho | ho
    · rw [hview] at ho
      cases ho
    · exact (hn ho).elim
  · have hafter := (ht.view_eq _ hr).trans hview
    obtain ⟨row', hrow', hv⟩ := Option.map_eq_some_iff.mp hafter
    have hvalue := congrArg (RowView.value · .vietnameseRendering) hv
    exact ⟨row', hrow', Option.some_inj.mp hvalue⟩

theorem step_keepsRendering {act : GlossaryAct} (h : act.Spares id s) :
    KeepsRendering id s (act.step s) := by
  cases act with
  | merge down seriesId analysis episodeKey settings =>
    refine (rendering_respected id).merge settings fun hl => lockNames_keepsRendering ?_
    have hids : seriesIds (termsMerged down seriesId analysis episodeKey s).store = seriesIds s :=
      seriesIds_respected.termsMerged
    exact (termsRead_of_seriesIds down seriesId hids).mpr (h hl)
  | humanEdit op => exact humanEdit_keepsRendering h.1 h.2

/-- Merges add terms and lock them, but an established rendering is the curators' to change. -/
theorem established_rendering_stays (s : Store) (acts : List GlossaryAct)
    (h : Along GlossaryAct.step (GlossaryAct.Spares id) s acts)
    (hrow : s.termDictionary.get? id = some row) (hne : strip row.vietnameseRendering ≠ []) :
    ∃ row', (run GlossaryAct.step s acts).termDictionary.get? id = some row' ∧
      row'.vietnameseRendering = row.vietnameseRendering :=
  related_run (R := KeepsRendering id) (fun _ => keepsRendering_of_eq rfl)
    (fun _ _ _ => KeepsRendering.trans) (fun _ _ => step_keepsRendering) h row hrow hne

def sectTerm : TermDictionary where
  id := 1
  seriesId := 1
  sourceTerm := "sect"
  vietnameseRendering := "tông môn"

def sectStore : Store where
  series := ⟨[{ id := 1 }], nodup_firstSeries⟩
  termDictionary := ⟨[sectTerm], by decide⟩

def sectMerge : GlossaryAct :=
  .merge (fun _ => false) 1
    { characters := [{ originalLatinName := "Sect", vietnameseRendering := some "Tông" }]
      terms := [{ sourceTerm := "SECT", vietnameseRendering := "môn phái" }] } "S01E02" {}

def elderEdit : GlossaryAct :=
  .humanEdit (.applyHumanEditTerm 1 (some "elder") none .vietnameseRendering (some "trưởng lão")
    true)

theorem sect_stays_rendered :
    ∃ row, (run GlossaryAct.step sectStore [sectMerge, elderEdit]).termDictionary.get? 1 =
      some row ∧ row.vietnameseRendering = sectTerm.vietnameseRendering := by
  have hfound : sectStore.termDictionary.get? 1 = some sectTerm := rfl
  refine established_rendering_stays sectStore [sectMerge, elderEdit] ?_ hfound (by decide)
  refine ⟨fun _ => ⟨rfl, rfl⟩, ⟨by trivial, ?_⟩, trivial⟩
  rintro ⟨row, hrow, -⟩
  have hnone : findTermExact (sectMerge.step sectStore) 1 "elder" = [] := by decide
  exact List.not_mem_nil (hnone ▸ hrow)

end Trezarr
