import Trezarr.Bible.Session

/-! What an operation leaves alone: parts of the store that no row it writes can show in. -/
namespace Trezarr
open Text Rows BibleRow Fallible

/-- A part of the store other than its log. -/
class EventFree {β : Type*} (F : Store → β) : Prop where
  events_eq : ∀ s events, F { s with bibleEvents := events } = F s

/-- A part of the store that depends on the rows of a table through their identity at most. -/
class RowFree {β : Type*} (F : Store → β) (R : Type) [BibleRow R] : Prop where
  storeRow_eq : ∀ {s : Store} {row row' : R}, (table s).get? (Keyed.id row) = some row →
    Keyed.id row' = Keyed.id row → ident row' = ident row → F (storeRow s row') = F s

/-- A part of the store that a table has no part in. -/
class TableFree {β : Type*} (F : Store → β) (R : Type) [BibleRow R] : Prop where
  withTable_eq : ∀ s t, F (withTable (R := R) s t) = F s

variable {β : Type*} {F : Store → β} {R : Type} [BibleRow R]

instance [TableFree F R] : RowFree F R := ⟨fun _ _ _ => TableFree.withTable_eq _ _⟩

variable [EventFree F] {s s' mid : Store} {row row' : R} {episodeKey : Option Str}
  {source : Str} {events : List BibleEvent} {p : Field → Prop} {fields : List (Field × Option Str)}
  {field : Field} {newValue : Option Str} {lock : Bool}

theorem Wrote.frame (h : Wrote p row s row' events s') : F s' = F s := by
  rw [h.store_eq]
  exact EventFree.events_eq _ _

theorem Wrote.frame_storeRow [RowFree F R] (hrow : (table s).get? (Keyed.id row) = some row)
    (h : Wrote p row s row' events mid) : F (storeRow mid row') = F s :=
  (RowFree.storeRow_eq (h.table_eq ▸ hrow) h.id_eq h.ident_eq).trans h.frame

theorem createRow_frame [TableFree F R]
    (h : createRow s row fields episodeKey source = .ok (row', events, s')) : F s' = F s := by
  obtain ⟨mid, ha, hw⟩ := createRow_ok h
  obtain ⟨-, rfl⟩ := addRow_ok ha
  exact hw.frame.trans (TableFree.withTable_eq _ _)

theorem editRow_frame [RowFree F R] (hrow : (table s).get? (Keyed.id row) = some row)
    (h : editRow s row field newValue lock = .ok s') : F s' = F s := by
  obtain ⟨row₁, hset, h⟩ := bind_ok h
  obtain ⟨⟨evt, s₁⟩, he, h⟩ := bind_ok h
  cases h
  have hid := (relock_id row₁ field lock).trans (id_setValue hset)
  have hident := (relock_ident row₁ field lock).trans (ident_setValue hset)
  have hw := addEvent_wrote (p := fun _ => True) trivial he
  exact hw.frame.trans (RowFree.storeRow_eq hrow hid hident)

theorem mergeInto_frame [RowFree F R] {id : ℕ}
    (h : mergeInto R s id fields episodeKey source = .ok s') : F s' = F s := by
  obtain ⟨_, -, h⟩ := bind_ok h
  split at h
  · cases h
  · next row hrow =>
    obtain ⟨⟨row', evts, s₁⟩, hm, h⟩ := bind_ok h
    cases h
    obtain ⟨mid, hw, rfl⟩ := mergeInferredInSession_ok hm
    exact hw.frame_storeRow (Table.get?_id hrow)

theorem mergeInferred_frame [RowFree F Character] [RowFree F TermDictionary] [RowFree F Series]
    {entity : EntityType} {id : ℕ} {inferred : Dict Field (Option Str)}
    (h : mergeInferred s entity id inferred episodeKey source = .ok s') : F s' = F s := by
  unfold mergeInferred at h
  split at h
  · cases h
  · cases entity with
    | character => exact mergeInto_frame h
    | termDictionary => exact mergeInto_frame h
    | series => exact mergeInto_frame h
    | addressMap => cases h

theorem mergeInferred_series_frame [RowFree F Series] {id : ℕ}
    {inferred : Dict Field (Option Str)}
    (h : mergeInferred s .series id inferred episodeKey source = .ok s') : F s' = F s := by
  unfold mergeInferred at h
  split at h
  · cases h
  · exact mergeInto_frame h

section Upserts

variable {seriesId : ℕ} {name sourceTerm : Str} {gender roughAge role vr category : Option Str}

theorem upsertCharacter_frame_of_found [RowFree F Character] {r : Character}
    (hf : findCharacter s seriesId name ≠ [])
    (h : upsertCharacterInSession s seriesId name gender roughAge role episodeKey source =
      .ok (r, events, s')) : F s' = F s := by
  obtain ⟨o, ho, h⟩ := bind_ok h
  cases o with
  | none => exact (hf (oneOrNone_ok ho)).elim
  | some row =>
    have hm : row ∈ findCharacter s seriesId name := by simp [oneOrNone_ok ho]
    simp only at h
    split at h
    · cases h
      rfl
    · obtain ⟨mid, hw, rfl⟩ := mergeInferredInSession_ok h
      exact hw.frame_storeRow (get?_of_select hm)

theorem upsertCharacter_frame [TableFree F Character] {r : Character}
    (h : upsertCharacterInSession s seriesId name gender roughAge role episodeKey source =
      .ok (r, events, s')) : F s' = F s := by
  by_cases hf : findCharacter s seriesId name = []
  · obtain ⟨o, ho, h⟩ := bind_ok h
    rw [hf] at ho
    cases ho
    exact createRow_frame h
  · exact upsertCharacter_frame_of_found hf h

theorem upsertTerm_frame_of_found [RowFree F TermDictionary] {r : TermDictionary}
    (hf : findTerms s seriesId sourceTerm ≠ [])
    (h : upsertTermInSession s seriesId sourceTerm vr category episodeKey source =
      .ok (r, events, s')) : F s' = F s := by
  obtain ⟨hn, -⟩ | ⟨row, suppressed, mid, hm, hs, h⟩ := upsertTerm_cases h
  · exact (hf hn).elim
  · have hw := suppressedEvents_wrote hs
    obtain ⟨-, -, rfl⟩ | ⟨merged, h, -⟩ := h
    · exact hw.frame
    · obtain ⟨last, hw', rfl⟩ := mergeInferredInSession_ok h
      exact (hw.trans hw').frame_storeRow (get?_of_select hm)

theorem upsertTerm_frame [TableFree F TermDictionary] {r : TermDictionary}
    (h : upsertTermInSession s seriesId sourceTerm vr category episodeKey source =
      .ok (r, events, s')) : F s' = F s := by
  by_cases hf : findTerms s seriesId sourceTerm = []
  · obtain ⟨-, h⟩ | ⟨row, _, _, hm, -⟩ := upsertTerm_cases h
    · exact createRow_frame h
    · simp [hf] at hm
  · exact upsertTerm_frame_of_found hf h

theorem upsertAddressPair_frame [TableFree F AddressMap] {speaker addressee : ℕ}
    {selfTerm addressTerm validFrom : Option Str} {r : AddressMap}
    (h : upsertAddressPairInSession s seriesId speaker addressee selfTerm addressTerm validFrom
      episodeKey source = .ok (r, events, s')) : F s' = F s := by
  obtain ⟨o, ho, h⟩ := bind_ok h
  cases o with
  | none => exact createRow_frame h
  | some row =>
    obtain ⟨⟨row', evts, mid⟩, hf, h⟩ := bind_ok h
    cases h
    have hm : row ∈ findAddressPair s seriesId speaker addressee := by simp [oneOrNone_ok ho]
    have hw := applyPairFields_wrote (by simp [mergeableFields]) (fun f v _ _ hl _ => hl) hf
    exact hw.frame_storeRow (get?_of_select hm)

end Upserts

theorem createTerm_frame [TableFree F TermDictionary] {seriesId : ℕ} {sourceTerm : Str}
    (h : createTerm s seriesId sourceTerm field newValue lock = .ok s') : F s' = F s := by
  unfold createTerm at h
  split at h
  · obtain ⟨⟨row, s₁⟩, ha, h⟩ := bind_ok h
    obtain ⟨⟨evt, s₂⟩, he, h⟩ := bind_ok h
    cases h
    obtain ⟨-, hm⟩ := addRow_ok ha
    have ha : F s₁ = F s := hm ▸ TableFree.withTable_eq s _
    have hs : F (storeRow s₁ (relock row field lock)) = F s₁ := TableFree.withTable_eq s₁ _
    have hw := addEvent_wrote (p := fun _ => True) trivial he
    exact (hw.frame.trans hs).trans ha
  · cases h

theorem rowOfSeries_self {id series : ℕ} (h : rowOfSeries R s id series = .ok row) :
    (table s).get? (Keyed.id row) = some row := by
  have hrow := rowOfSeries_ok h
  exact Table.get?_id hrow

theorem editPairTerm_wrote {pair pair' : AddressMap} {term : Option Str}
    (hm : field ∈ mergeableFields .addressMap)
    (h : editPairTerm s pair field term lock = .ok (pair', s')) :
    ∃ events, Wrote (· = field) pair s pair' events s' := by
  rcases editPairTerm_cases h with ⟨rfl, rfl⟩ | ⟨new, evt, hset, he⟩
  · exact ⟨[], .refl⟩
  · have hset' : Wrote (· = field) pair s pair' [] s := setValue_wrote hm rfl hset
    exact ⟨_, hset'.trans (addEvent_wrote rfl he)⟩

/-- A human edit of a pair rewrites the row it names, whatever it does to the terms. -/
theorem applyHumanEditAddressPair_ok {id seriesId : ℕ} {selfTerm addressTerm : Option Str}
    (h : applyHumanEditAddressPair s id seriesId selfTerm addressTerm lock = .ok s') :
    ∃ row row' : AddressMap, ∃ mid events, (table s).get? id = some row ∧
      Keyed.id row' = Keyed.id row ∧ ident row' = ident row ∧
      mid = { s with bibleEvents := s.bibleEvents ++ events } ∧ s' = storeRow mid row' := by
  obtain ⟨row, row₁, s₁, row₂, s₂, hr, h₁, h₂, rfl⟩ := applyHumanEditAddressPair_steps h
  obtain ⟨evts₁, hw₁⟩ := editPairTerm_wrote (by decide) h₁
  obtain ⟨evts₂, hw₂⟩ := editPairTerm_wrote (by decide) h₂
  have hw := (hw₁.mono fun _ _ => trivial).trans (hw₂.mono (q := fun _ => True) fun _ _ => trivial)
  refine ⟨row, _, s₂, evts₁ ++ evts₂, rowOfSeries_ok hr, ?_, ?_, hw.store_eq, rfl⟩
  · rw [relock_id, relock_id, hw.id_eq]
  · rw [relock_ident, relock_ident, hw.ident_eq]

theorem applyHumanEditAddressPair_frame [RowFree F AddressMap] {id seriesId : ℕ}
    {selfTerm addressTerm : Option Str}
    (h : applyHumanEditAddressPair s id seriesId selfTerm addressTerm lock = .ok s') :
    F s' = F s := by
  obtain ⟨row, row', mid, events, hrow, hid, hident, rfl, rfl⟩ := applyHumanEditAddressPair_ok h
  refine (RowFree.storeRow_eq ?_ hid hident).trans (EventFree.events_eq _ _)
  rw [table_events, Table.id_of_get? hrow, hrow]

theorem applyHumanEditTerm_frame [TableFree F TermDictionary] {seriesId : ℕ}
    {sourceTerm : Option Str} {termId : Option ℕ}
    (h : applyHumanEditTerm s seriesId sourceTerm termId field newValue lock = .ok s') :
    F s' = F s := by
  cases termId with
  | some id =>
    obtain ⟨_, -, h⟩ := bind_ok h
    obtain ⟨row, hr, h⟩ := bind_ok h
    exact editRow_frame (rowOfSeries_self hr) h
  | none =>
    cases sourceTerm with
    | none => cases h
    | some sourceTerm =>
      obtain ⟨_, -, h⟩ := bind_ok h
      obtain ⟨o, ho, h⟩ := bind_ok h
      cases o with
      | none => exact createTerm_frame h
      | some row =>
        have hm : row ∈ findTermExact s seriesId sourceTerm := by simp [oneOrNone_ok ho]
        exact editRow_frame (get?_of_select hm) h

end Trezarr
