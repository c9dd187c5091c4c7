import Trezarr.Bible.Session

/-! A field a curator locked keeps its value, its lock and its history until the next human edit. -/
namespace Trezarr
open Text Rows BibleRow Fallible Runs

abbrev RowRef := EntityType × ℕ

structure RowView where
  lockedFields : List Field
  value : Field → Option Str

variable {R : Type} [BibleRow R]

def viewRow (row : R) : RowView := ⟨lockedFields row, value row⟩

def rowRef (row : R) : RowRef := (entityType R, Keyed.id row)

namespace Store

def view (s : Store) : RowRef → Option RowView
  | (.character, id) => (s.characters.get? id).map viewRow
  | (.termDictionary, id) => (s.termDictionary.get? id).map viewRow
  | (.series, id) => (s.series.get? id).map viewRow
  | (.addressMap, id) => (s.addressMaps.get? id).map viewRow

def eventsOf (s : Store) (ref : RowRef) (field : Field) : List BibleEvent :=
  s.bibleEvents.filter fun e => (e.entityType, e.entityId) = ref ∧ e.field = field

end Store

/-- A table is the part of the store its entity type names. -/
class Viewed (R : Type) [BibleRow R] : Prop where
  view_self : ∀ s id, s.view (entityType R, id) = ((table (R := R) s).get? id).map viewRow
  view_other : ∀ s t ref, ref.1 ≠ entityType R → (withTable (R := R) s t).view ref = s.view ref
  events_withTable : ∀ s t, (withTable (R := R) s t).bibleEvents = s.bibleEvents

instance : Viewed Series := ⟨fun _ _ => rfl, by rintro s t ⟨⟨⟩, id⟩ h <;> trivial, fun _ _ => rfl⟩

instance : Viewed Character := ⟨fun _ _ => rfl, by rintro s t ⟨⟨⟩, id⟩ h <;> trivial, fun _ _ => rfl⟩

instance : Viewed TermDictionary :=
  ⟨fun _ _ => rfl, by rintro s t ⟨⟨⟩, id⟩ h <;> trivial, fun _ _ => rfl⟩

instance : Viewed AddressMap :=
  ⟨fun _ _ => rfl, by rintro s t ⟨⟨⟩, id⟩ h <;> trivial, fun _ _ => rfl⟩

/-- `s'` differs from `s` in one row and in events about that row. -/
structure TouchesOnly (ref : RowRef) (s s' : Store) : Prop where
  view_eq : ∀ ref', ref' ≠ ref → s'.view ref' = s.view ref'
  events_eq : ∃ events, s'.bibleEvents = s.bibleEvents ++ events ∧
    ∀ e ∈ events, (e.entityType, e.entityId) = ref

/-- The row keeps its locks, and every locked field its value and its events. -/
def KeepsLocks (ref : RowRef) (s s' : Store) : Prop :=
  ∀ v, s.view ref = some v → ∃ v', s'.view ref = some v' ∧ v'.lockedFields = v.lockedFields ∧
    ∀ f ∈ v.lockedFields, v'.value f = v.value f ∧ s'.eventsOf ref f = s.eventsOf ref f

variable {s s' mid : Store} {row row' : R} {ref : RowRef} {events : List BibleEvent}
  {p : Field → Prop}

theorem TouchesOnly.refl : TouchesOnly ref s s :=
  ⟨fun _ _ => rfl, [], by simp, by simp⟩

theorem TouchesOnly.trans (h : TouchesOnly ref s mid) (h' : TouchesOnly ref mid s') :
    TouchesOnly ref s s' := by
  obtain ⟨evs, he, ha⟩ := h.events_eq
  obtain ⟨evs', he', ha'⟩ := h'.events_eq
  refine ⟨fun r hr => (h'.view_eq r hr).trans (h.view_eq r hr), evs ++ evs', ?_, ?_⟩
  · rw [he', he, List.append_assoc]
  · intro e hm
    exact (List.mem_append.mp hm).elim (ha e) (ha' e)

theorem KeepsLocks.refl : KeepsLocks ref s s :=
  fun v hv => ⟨v, hv, rfl, fun _ _ => ⟨rfl, rfl⟩⟩

theorem KeepsLocks.trans (h : KeepsLocks ref s mid) (h' : KeepsLocks ref mid s') :
    KeepsLocks ref s s' := by
  intro v hv
  obtain ⟨v₁, hv₁, hl₁, hf₁⟩ := h v hv
  obtain ⟨v₂, hv₂, hl₂, hf₂⟩ := h' v₁ hv₁
  refine ⟨v₂, hv₂, hl₂.trans hl₁, fun f hf => ?_⟩
  obtain ⟨ha, hb⟩ := hf₂ f (hl₁ ▸ hf)
  exact ⟨ha.trans (hf₁ f hf).1, hb.trans (hf₁ f hf).2⟩

theorem eventsOf_append {f : Field} (hs : s'.bibleEvents = s.bibleEvents ++ events)
    (hn : ∀ e ∈ events, (e.entityType, e.entityId) = ref → e.field ≠ f) :
    s'.eventsOf ref f = s.eventsOf ref f := by
  have hnil : events.filter (fun e => (e.entityType, e.entityId) = ref ∧ e.field = f) = [] := by
    rw [List.filter_eq_nil_iff]
    intro e he
    simpa using hn e he
  rw [Store.eventsOf, hs, List.filter_append, hnil, List.append_nil, Store.eventsOf]

theorem TouchesOnly.keepsLocks {ref' : RowRef} (h : TouchesOnly ref' s s') (hne : ref ≠ ref') :
    KeepsLocks ref s s' := by
  obtain ⟨evs, he, ha⟩ := h.events_eq
  intro v hv
  refine ⟨v, (h.view_eq ref hne).trans hv, rfl, fun f _ => ⟨rfl, eventsOf_append he ?_⟩⟩
  intro e hm hr
  exact (hne (hr.symm.trans (ha e hm))).elim

theorem Wrote.touches (h : Wrote p row s row' events s') : TouchesOnly (rowRef row) s s' := by
  have hs := h.store_eq
  refine ⟨fun ref' _ => ?_, events, by rw [hs], fun e he => ?_⟩
  · obtain ⟨⟨⟩, id⟩ := ref' <;> rw [hs] <;> rfl
  · obtain ⟨ht, hi, -⟩ := h.about e he
    simp [rowRef, ht, hi]

theorem Wrote.rowRef_eq (h : Wrote p row s row' events s') : rowRef row' = rowRef row :=
  congrArg (Prod.mk (entityType R)) h.id_eq

theorem rowRef_relock (f : Field) (b : Bool) : rowRef (relock row f b) = rowRef row :=
  congrArg (Prod.mk (entityType R)) (relock_id row f b)

theorem rowRef_of_rowOfSeries {id series : ℕ} (h : rowOfSeries R s id series = .ok row) :
    rowRef row = (entityType R, id) :=
  congrArg (Prod.mk (entityType R)) (Table.id_of_get? (rowOfSeries_ok h))

variable [Viewed R]

theorem view_storeRow : (storeRow s row).view (rowRef row) =
    (s.view (rowRef row)).map fun _ => viewRow row := by
  simp only [rowRef, Viewed.view_self, storeRow, table_withTable, Table.get?_put, if_true,
    Option.map_map, Function.comp_def]

theorem storeRow_touches (s : Store) (row : R) : TouchesOnly (rowRef row) s (storeRow s row) := by
  refine ⟨fun ref' hne => ?_, [], by simp [storeRow, Viewed.events_withTable], by simp⟩
  obtain ⟨t, id⟩ := ref'
  by_cases ht : t = entityType R
  · subst ht
    have hid : id ≠ Keyed.id row := by rintro rfl; exact hne rfl
    simp only [Viewed.view_self, storeRow, table_withTable, Table.get?_put, if_neg hid]
  · exact Viewed.view_other _ _ _ ht

theorem Wrote.storeRow_touches (h : Wrote p row s row' events mid) :
    TouchesOnly (rowRef row) s (storeRow mid row') :=
  h.touches.trans (h.rowRef_eq ▸ Trezarr.storeRow_touches ..)

/-- Writing unlocked fields only is what every operation of the pipeline does to a row. -/
theorem Wrote.keepsLocks (hrow : (table s).get? (Keyed.id row) = some row)
    (h : Wrote (· ∉ lockedFields row) row s row' events mid) :
    KeepsLocks (rowRef row) s (storeRow mid row') := by
  have hview : s.view (rowRef row) = some (viewRow row) := by
    simp [rowRef, Viewed.view_self, hrow]
  have hmid : mid.view (rowRef row) = some (viewRow row) := by
    rw [← hview, h.store_eq]
    obtain ⟨⟨⟩, id⟩ := rowRef row <;> rfl
  intro v hv
  obtain rfl : viewRow row = v := Option.some_inj.mp (hview.symm.trans hv)
  refine ⟨viewRow row', ?_, h.locked_eq, fun f hf => ⟨h.value_eq f (not_not.mpr hf), ?_⟩⟩
  · rw [← h.rowRef_eq] at hmid ⊢
    rw [view_storeRow, hmid]
    rfl
  · have hb : (storeRow mid row').bibleEvents = s.bibleEvents ++ events := by
      rw [storeRow, Viewed.events_withTable, h.store_eq]
    refine eventsOf_append hb fun e he _ heq => ?_
    exact (h.about e he).2.2 (heq ▸ hf)

theorem addRow_touches (h : addRow s row = .ok (row', s')) :
    TouchesOnly (rowRef row') s s' ∧ s.view (rowRef row') = none := by
  obtain ⟨rfl, rfl⟩ := addRow_ok h
  have hid : Keyed.id ((table (R := R) s).insert row).1 = (table (R := R) s).nextId := by
    rw [Table.insert_fst, Keyed.id_withId]
  constructor
  · refine ⟨fun ref' hne => ?_, [], by simp [Viewed.events_withTable], by simp⟩
    obtain ⟨t, id⟩ := ref'
    by_cases ht : t = entityType R
    · subst ht
      have hne' : id ≠ (table (R := R) s).nextId := by
        rintro rfl
        exact hne (congrArg (Prod.mk _) hid.symm)
      simp only [Viewed.view_self, table_withTable, Table.get?_insert, if_neg hne']
    · exact Viewed.view_other _ _ _ ht
  · rw [rowRef, Viewed.view_self, hid, Option.map_eq_none_iff]
    by_contra hn
    obtain ⟨r, hr⟩ := Option.ne_none_iff_exists'.mp hn
    exact (Table.get?_lt_nextId hr).false

theorem editRow_touches {field : Field} {newValue : Option Str} {lock : Bool}
    (h : editRow s row field newValue lock = .ok s') : TouchesOnly (rowRef row) s s' := by
  obtain ⟨row₁, hset, h⟩ := bind_ok h
  obtain ⟨⟨evt, s₁⟩, he, h⟩ := bind_ok h
  cases h
  have hr : rowRef (relock row₁ field lock) = rowRef row := by
    rw [rowRef_relock, rowRef, id_setValue hset, rowRef]
  rw [← hr]
  exact (storeRow_touches ..).trans (addEvent_wrote (p := fun _ => True) trivial he).touches

theorem createTerm_touches {seriesId : ℕ} {sourceTerm : Str} {field : Field}
    {newValue : Option Str} {lock : Bool}
    (h : createTerm s seriesId sourceTerm field newValue lock = .ok s') :
    ∃ ref', TouchesOnly ref' s s' ∧ s.view ref' = none := by
  unfold createTerm at h
  split at h
  · obtain ⟨⟨row, s₁⟩, ha, h⟩ := bind_ok h
    obtain ⟨⟨evt, s₂⟩, he, h⟩ := bind_ok h
    cases h
    obtain ⟨ht, hn⟩ := addRow_touches ha
    have hw := (addEvent_wrote (p := fun _ => True) trivial he).touches
    rw [rowRef_relock] at hw
    have hs : TouchesOnly (rowRef row) s₁ (storeRow s₁ (relock row field lock)) := by
      rw [← rowRef_relock field lock]
      exact storeRow_touches ..
    exact ⟨rowRef row, (ht.trans hs).trans hw, hn⟩
  · cases h

theorem editPairTerm_ok {pair pair' : AddressMap} {field : Field} {term : Option Str} {lock : Bool}
    (h : editPairTerm s pair field term lock = .ok (pair', s')) :
    rowRef pair' = rowRef pair ∧ TouchesOnly (rowRef pair) s s' := by
  rcases editPairTerm_cases h with ⟨rfl, rfl⟩ | ⟨new, evt, hset, he⟩
  · exact ⟨rfl, .refl⟩
  · have hr : rowRef pair' = rowRef pair := by rw [rowRef, id_setValue hset, rowRef]
    exact ⟨hr, hr ▸ (addEvent_wrote (p := fun _ => True) trivial he).touches⟩

/-- A new row, or unlocked fields of one row: all that a write without a curator comes to. -/
def PipelineWrite (s s' : Store) : Prop :=
  ∃ ref, TouchesOnly ref s s' ∧ (s.view ref = none ∨ KeepsLocks ref s s')

theorem PipelineWrite.keepsLocks (h : PipelineWrite s s') : KeepsLocks ref s s' := by
  obtain ⟨ref', ht, hk⟩ := h
  by_cases hr : ref = ref'
  · subst hr
    rcases hk with hn | hk
    · intro v hv
      simp [hn] at hv
    · exact hk
  · exact ht.keepsLocks hr

theorem pipelineWrite_refl : PipelineWrite s s := ⟨(.series, 0), .refl, Or.inr .refl⟩

theorem Wrote.pipelineWrite (hrow : (table s).get? (Keyed.id row) = some row)
    (h : Wrote (· ∉ lockedFields row) row s row' events mid) :
    PipelineWrite s (storeRow mid row') :=
  ⟨rowRef row, h.storeRow_touches, Or.inr (h.keepsLocks hrow)⟩

theorem createRow_pipelineWrite {fields : List (Field × Option Str)} {episodeKey : Option Str}
    {source : Str} (h : createRow s row fields episodeKey source = .ok (row', events, s')) :
    PipelineWrite s s' := by
  obtain ⟨mid, ha, hw⟩ := createRow_ok h
  obtain ⟨ht, hn⟩ := addRow_touches ha
  exact ⟨rowRef row', ht.trans hw.touches, Or.inl hn⟩

theorem upsertCharacter_pipelineWrite {seriesId : ℕ} {name : Str}
    {gender roughAge role episodeKey : Option Str} {source : Str} {r : Character}
    (h : upsertCharacterInSession s seriesId name gender roughAge role episodeKey source =
      .ok (r, events, s')) : PipelineWrite s s' := by
  obtain ⟨o, ho, h⟩ := bind_ok h
  cases o with
  | none => exact createRow_pipelineWrite h
  | some row =>
    simp only at h
    split at h
    · cases h
      exact pipelineWrite_refl
    · obtain ⟨mid, hw, rfl⟩ := mergeInferredInSession_ok h
      have hm : row ∈ findCharacter s seriesId name := by simp [oneOrNone_ok ho]
      exact hw.pipelineWrite (get?_of_select hm)

theorem upsertTerm_pipelineWrite {seriesId : ℕ} {sourceTerm : Str}
    {vr category episodeKey : Option Str} {source : Str} {r : TermDictionary}
    (h : upsertTermInSession s seriesId sourceTerm vr category episodeKey source =
      .ok (r, events, s')) : PipelineWrite s s' := by
  obtain ⟨-, h⟩ | ⟨row, suppressed, mid, hm, hs, h⟩ := upsertTerm_cases h
  · exact createRow_pipelineWrite h
  · have hget := get?_of_select hm
    have hw := suppressedEvents_wrote hs
    obtain ⟨-, -, rfl⟩ | ⟨merged, h, -⟩ := h
    · have hput : storeRow s' row = s' := storeRow_self (by rw [hw.table_eq]; exact hget)
      rw [← hput]
      exact hw.pipelineWrite hget
    · obtain ⟨last, hw', rfl⟩ := mergeInferredInSession_ok h
      exact (hw.trans hw').pipelineWrite hget

theorem upsertAddressPair_pipelineWrite {seriesId speaker addressee : ℕ}
    {selfTerm addressTerm validFrom episodeKey : Option Str} {source : Str} {r : AddressMap}
    (h : upsertAddressPairInSession s seriesId speaker addressee selfTerm addressTerm validFrom
      episodeKey source = .ok (r, events, s')) : PipelineWrite s s' := by
  obtain ⟨o, ho, h⟩ := bind_ok h
  cases o with
  | none => exact createRow_pipelineWrite h
  | some row =>
    obtain ⟨⟨row', evts, mid⟩, hf, h⟩ := bind_ok h
    cases h
    have hm : row ∈ findAddressPair s seriesId speaker addressee := by simp [oneOrNone_ok ho]
    have hw := applyPairFields_wrote (by simp [mergeableFields]) (fun f v _ _ hl _ => hl) hf
    exact hw.pipelineWrite (get?_of_select hm)

theorem mergeInto_pipelineWrite {id : ℕ} {inferred : List (Field × Option Str)}
    {episodeKey : Option Str} {source : Str}
    (h : mergeInto R s id inferred episodeKey source = .ok s') : PipelineWrite s s' := by
  obtain ⟨_, -, h⟩ := bind_ok h
  split at h
  · cases h
  · next row hrow =>
    obtain ⟨⟨row', evts, s₁⟩, hm, h⟩ := bind_ok h
    cases h
    obtain ⟨mid, hw, rfl⟩ := mergeInferredInSession_ok hm
    exact hw.pipelineWrite (Table.get?_id hrow)

theorem mergeInferred_pipelineWrite {entity : EntityType} {id : ℕ}
    {inferred : Dict Field (Option Str)} {episodeKey : Option Str} {source : Str}
    (h : mergeInferred s entity id inferred episodeKey source = .ok s') : PipelineWrite s s' := by
  unfold mergeInferred at h
  split at h
  · cases h
  · cases entity with
    | character => exact mergeInto_pipelineWrite h
    | termDictionary => exact mergeInto_pipelineWrite h
    | series => exact mergeInto_pipelineWrite h
    | addressMap => cases h

/-- The row a human edit is aimed at, as it stands when the edit is made. -/
def HumanEdits (s : Store) : StoreOp → RowRef → Prop
  | .applyHumanEditCharacter id _ _ _ _, ref => ref = (.character, id)
  | .applyHumanEditAddressPair id _ _ _ _, ref => ref = (.addressMap, id)
  | .applyHumanEditTerm _ _ (some id) _ _ _, ref => ref = (.termDictionary, id)
  | .applyHumanEditTerm seriesId (some sourceTerm) none _ _ _, ref =>
    ∃ row ∈ findTermExact s seriesId sourceTerm, ref = rowRef row
  | .applyHumanEditSeries id _ _ _, ref => ref = (.series, id)
  | _, _ => False

theorem applyHumanEditTerm_touches {seriesId : ℕ} {sourceTerm : Option Str} {termId : Option ℕ}
    {field : Field} {newValue : Option Str} {lock : Bool}
    (h : applyHumanEditTerm s seriesId sourceTerm termId field newValue lock = .ok s') :
    ∃ ref', TouchesOnly ref' s s' ∧ (s.view ref' = none ∨
      HumanEdits s (.applyHumanEditTerm seriesId sourceTerm termId field newValue lock) ref') := by
  cases termId with
  | some id =>
    obtain ⟨_, -, h⟩ := bind_ok h
    obtain ⟨row, hr, h⟩ := bind_ok h
    exact ⟨rowRef row, editRow_touches h, Or.inr (rowRef_of_rowOfSeries hr)⟩
  | none =>
    cases sourceTerm with
    | none => cases h
    | some sourceTerm =>
      obtain ⟨_, -, h⟩ := bind_ok h
      obtain ⟨o, ho, h⟩ := bind_ok h
      cases o with
      | none =>
        obtain ⟨ref', ht, hn⟩ := createTerm_touches h
        exact ⟨ref', ht, Or.inl hn⟩
      | some row =>
        refine ⟨rowRef row, editRow_touches h, Or.inr ⟨row, ?_, rfl⟩⟩
        simp [oneOrNone_ok ho]

theorem applyHumanEditAddressPair_touches {id seriesId : ℕ} {selfTerm addressTerm : Option Str}
    {lock : Bool} (h : applyHumanEditAddressPair s id seriesId selfTerm addressTerm lock = .ok s') :
    TouchesOnly (.addressMap, id) s s' := by
  obtain ⟨row, row₁, s₁, row₂, s₂, hr, h₁, h₂, rfl⟩ := applyHumanEditAddressPair_steps h
  obtain ⟨hr₁, ht₁⟩ := editPairTerm_ok h₁
  obtain ⟨hr₂, ht₂⟩ := editPairTerm_ok h₂
  have hs := storeRow_touches s₂ (relock (relock row₂ .selfTerm lock) .addressTerm lock)
  rw [rowRef_relock, rowRef_relock, hr₂, hr₁] at hs
  rw [hr₁] at ht₂
  have he : rowRef row = (.addressMap, id) := rowRef_of_rowOfSeries hr
  rw [← he]
  exact (ht₁.trans ht₂).trans hs

def StoreOp.IsHumanEdit : StoreOp → Prop
  | .applyHumanEditCharacter .. | .applyHumanEditAddressPair .. | .applyHumanEditTerm ..
  | .applyHumanEditSeries .. => True
  | _ => False

theorem humanEdit_touches {op : StoreOp} (hop : op.IsHumanEdit) (h : op.exec s = .ok s') :
    ∃ ref', TouchesOnly ref' s s' ∧ (s.view ref' = none ∨ HumanEdits s op ref') := by
  cases op with
  | upsertCharacter | upsertTerm | upsertAddressPair | mergeInferred => exact hop.elim
  | applyHumanEditCharacter =>
    obtain ⟨_, -, h⟩ := bind_ok h
    obtain ⟨row, hr, h⟩ := bind_ok h
    exact ⟨rowRef row, editRow_touches h, Or.inr (rowRef_of_rowOfSeries hr)⟩
  | applyHumanEditAddressPair => exact ⟨_, applyHumanEditAddressPair_touches h, Or.inr rfl⟩
  | applyHumanEditTerm => exact applyHumanEditTerm_touches h
  | applyHumanEditSeries =>
    obtain ⟨_, -, h⟩ := bind_ok h
    obtain ⟨row, hr, h⟩ := bind_ok h
    exact ⟨rowRef row, editRow_touches h, Or.inr (rowRef_of_rowOfSeries hr)⟩

theorem humanEdit_keepsLocks {op : StoreOp} (hop : op.IsHumanEdit) (h : op.exec s = .ok s')
    (hn : ¬ HumanEdits s op ref) : KeepsLocks ref s s' := by
  obtain ⟨ref', ht, ho⟩ := humanEdit_touches hop h
  by_cases hr : ref = ref'
  · subst hr
    rcases ho with ho | ho
    · intro v hv
      simp [ho] at hv
    · exact (hn ho).elim
  · exact ht.keepsLocks hr

/-- One operation: whatever it is, a row no human edit is aimed at keeps its locks. -/
theorem exec_keepsLocks {op : StoreOp} (h : op.exec s = .ok s') (hn : ¬ HumanEdits s op ref) :
    KeepsLocks ref s s' := by
  cases op with
  | upsertCharacter =>
    obtain ⟨⟨_, _, _⟩, hu, rfl⟩ := map_ok h
    exact (upsertCharacter_pipelineWrite hu).keepsLocks
  | upsertTerm =>
    obtain ⟨⟨_, _, _⟩, hu, rfl⟩ := map_ok h
    exact (upsertTerm_pipelineWrite hu).keepsLocks
  | upsertAddressPair =>
    obtain ⟨⟨_, _, _⟩, hu, rfl⟩ := map_ok h
    exact (upsertAddressPair_pipelineWrite hu).keepsLocks
  | mergeInferred => exact (mergeInferred_pipelineWrite h).keepsLocks
  | applyHumanEditCharacter | applyHumanEditAddressPair | applyHumanEditTerm
  | applyHumanEditSeries => exact humanEdit_keepsLocks (by trivial) h hn

theorem step_keepsLocks {op : StoreOp} (hn : ¬ HumanEdits s op ref) :
    KeepsLocks ref s (op.step s) :=
  related_getD .refl fun _ h => exec_keepsLocks h hn

theorem step_of_error {op : StoreOp} {err : StoreError} (h : op.exec s = .error err) :
    op.step s = s := by
  rw [StoreOp.step, h]
  rfl

/-- Between two human edits of a row nothing moves what a curator locked in it. -/
theorem locked_until_human_edit (s : Store) (ops : List StoreOp) (ref : RowRef)
    (h : Along StoreOp.step (fun s op => ¬ HumanEdits s op ref) s ops) :
    KeepsLocks ref s (run StoreOp.step s ops) ∧
      ∀ op err, StoreOp.exec (run StoreOp.step s ops) op = .error err →
        StoreOp.step (run StoreOp.step s ops) op = run StoreOp.step s ops :=
  ⟨related_run (R := KeepsLocks ref) (fun _ => .refl) (fun _ _ _ => KeepsLocks.trans)
    (fun _ _ hn => step_keepsLocks hn) h, fun _ _ => step_of_error⟩

def lockedStore : Store where
  series := ⟨[{ id := 1 }], nodup_firstSeries⟩
  characters :=
    ⟨[{ id := 1, seriesId := 1, originalLatinName := "Mara", gender := some "female"
        lockedFields := [.gender] }], by decide⟩

theorem mara_stays_female : ∃ v, v.value .gender = some "female".toList ∧
    (run StoreOp.step lockedStore
      [.upsertCharacter 1 "MARA" (some "male") none none none "inference",
       .mergeInferred .character 1 (Dict.empty.set .gender none) none "import"]).view
      (.character, 1) = some v := by
  obtain ⟨v, hv, -, hf⟩ := (locked_until_human_edit lockedStore
    [.upsertCharacter 1 "MARA" (some "male") none none none "inference",
     .mergeInferred .character 1 (Dict.empty.set .gender none) none "import"]
    (.character, 1) ⟨id, id, trivial⟩).1 _ rfl
  exact ⟨v, (hf .gender (List.mem_singleton_self _)).1, hv⟩

end Trezarr
