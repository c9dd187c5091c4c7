import Trezarr.Bible.Store
import Trezarr.Lib.Fallible

/-! What each step of a session writes: one row, and events about that row. -/
namespace Trezarr
open Text Rows BibleRow Fallible

theorem oneOrNone_ok {α : Type} {rows : List α} {o : Option α} (h : oneOrNone rows = .ok o) :
    rows = o.toList :=
  scalarOneOrNone_ok.mp (mapError_ok h)

variable {R : Type} [BibleRow R] {s s' : Store} {row row' : R} {episodeKey : Option Str}
  {source : Str} {field : Field} {oldVal newVal : Option Str} {events : List BibleEvent}
  {p : Field → Prop}

/-- A term of a pair is left as it is, or set and logged. -/
theorem editPairTerm_cases {pair pair' : AddressMap} {term : Option Str} {lock : Bool}
    (h : editPairTerm s pair field term lock = .ok (pair', s')) :
    pair' = pair ∧ s' = s ∨ ∃ new evt, setValue pair field new = .ok pair' ∧
      addEvent s pair' none field (value pair field) new (humanSource lock) = .ok (evt, s') := by
  unfold editPairTerm at h
  split at h
  · cases h
    exact .inl ⟨rfl, rfl⟩
  · split at h
    · cases h
      exact .inl ⟨rfl, rfl⟩
    · obtain ⟨row, hset, h⟩ := bind_ok h
      obtain ⟨⟨evt, s₁⟩, he, h⟩ := bind_ok h
      cases h
      exact .inr ⟨_, evt, hset, he⟩

/-- One term after the other, and then the locks. -/
theorem applyHumanEditAddressPair_steps {id seriesId : ℕ} {selfTerm addressTerm : Option Str}
    {lock : Bool} (h : applyHumanEditAddressPair s id seriesId selfTerm addressTerm lock = .ok s') :
    ∃ row row₁ s₁ row₂ s₂, rowOfSeries AddressMap s id seriesId = .ok row ∧
      editPairTerm s row .selfTerm selfTerm lock = .ok (row₁, s₁) ∧
      editPairTerm s₁ row₁ .addressTerm addressTerm lock = .ok (row₂, s₂) ∧
      s' = storeRow s₂ (relock (relock row₂ .selfTerm lock) .addressTerm lock) := by
  unfold applyHumanEditAddressPair at h
  split at h
  · cases h
  · obtain ⟨row, hr, h⟩ := bind_ok h
    obtain ⟨⟨row₁, s₁⟩, h₁, h⟩ := bind_ok h
    obtain ⟨⟨row₂, s₂⟩, h₂, h⟩ := bind_ok h
    cases h
    exact ⟨row, row₁, s₁, row₂, s₂, hr, h₁, h₂, rfl⟩

/-- A session that changed only fields satisfying `p` of one row and logged only such changes. -/
structure Wrote (p : Field → Prop) (row : R) (s : Store) (row' : R) (events : List BibleEvent)
    (s' : Store) : Prop where
  id_eq : Keyed.id row' = Keyed.id row
  ident_eq : ident row' = ident row
  locked_eq : lockedFields row' = lockedFields row
  value_eq : ∀ f, ¬ p f → value row' f = value row f
  store_eq : s' = { s with bibleEvents := s.bibleEvents ++ events }
  about : ∀ e ∈ events, e.entityType = entityType R ∧ e.entityId = Keyed.id row ∧ p e.field

theorem Wrote.refl : Wrote p row s row [] s := by
  refine ⟨rfl, rfl, rfl, fun _ _ => rfl, by simp, by simp⟩

theorem Wrote.trans {row'' : R} {s'' : Store} {events' : List BibleEvent}
    (h : Wrote p row s row' events s') (h' : Wrote p row' s' row'' events' s'') :
    Wrote p row s row'' (events ++ events') s'' where
  id_eq := h'.id_eq.trans h.id_eq
  ident_eq := h'.ident_eq.trans h.ident_eq
  locked_eq := h'.locked_eq.trans h.locked_eq
  value_eq f hf := (h'.value_eq f hf).trans (h.value_eq f hf)
  store_eq := by rw [h'.store_eq, h.store_eq]; simp
  about e he := by
    rcases List.mem_append.mp he with he | he
    · exact h.about e he
    · rw [← h.id_eq]
      exact h'.about e he

theorem Wrote.mono {q : Field → Prop} (h : Wrote p row s row' events s') (hpq : ∀ f, p f → q f) :
    Wrote q row s row' events s' :=
  { h with
    value_eq := fun f hf => h.value_eq f (fun hp => hf (hpq f hp))
    about := fun e he => ⟨(h.about e he).1, (h.about e he).2.1, hpq _ (h.about e he).2.2⟩ }

theorem addEvent_ok {evt : BibleEvent}
    (h : addEvent s row episodeKey field oldVal newVal source = .ok (evt, s')) :
    evt.entityType = entityType R ∧ evt.entityId = Keyed.id row ∧ evt.field = field ∧
      s' = { s with bibleEvents := s.bibleEvents ++ [evt] } := by
  unfold addEvent at h
  split at h
  · cases h
  · split at h
    · cases h
    · cases h
      exact ⟨rfl, rfl, rfl, rfl⟩

theorem addEvent_values {evt : BibleEvent}
    (h : addEvent s row episodeKey field oldVal newVal source = .ok (evt, s')) :
    evt.oldValue = oldVal ∧ evt.newValue = newVal := by
  unfold addEvent at h
  split at h
  · cases h
  · split at h
    · cases h
    · cases h
      exact ⟨rfl, rfl⟩

theorem addEvent_wrote {evt : BibleEvent} (hp : p field)
    (h : addEvent s row episodeKey field oldVal newVal source = .ok (evt, s')) :
    Wrote p row s row [evt] s' := by
  obtain ⟨ht, hi, hf, hs⟩ := addEvent_ok h
  refine ⟨rfl, rfl, rfl, fun _ _ => rfl, hs, ?_⟩
  simp only [List.mem_singleton, forall_eq]
  exact ⟨ht, hi, hf ▸ hp⟩

theorem setValue_wrote (hm : field ∈ mergeableFields (entityType R)) (hp : p field)
    (h : setValue row field newVal = .ok row') : Wrote p row s row' [] s := by
  refine ⟨id_setValue h, ident_setValue h, locked_setValue h, fun f hf => ?_, by simp, by simp⟩
  have hne : f ≠ field := by rintro rfl; exact hf hp
  rw [value_setValue hm h, if_neg hne]

theorem addCreationEvents_wrote {fields : List (Field × Option Str)}
    (h : addCreationEvents row episodeKey source s fields = .ok (events, s')) :
    Wrote (· ∈ fields.map Prod.fst) row s row events s' := by
  induction fields generalizing s events with
  | nil => cases h; exact .refl
  | cons fv fields ih =>
    obtain ⟨f, v⟩ := fv
    cases v with
    | none => exact (ih h).mono fun _ hf => List.mem_cons_of_mem _ hf
    | some v =>
      obtain ⟨⟨evt, s₁⟩, he, h⟩ := bind_ok h
      obtain ⟨⟨evts, s₂⟩, hr, h⟩ := bind_ok h
      cases h
      exact (addEvent_wrote List.mem_cons_self he).trans
        ((ih hr).mono fun _ hf => List.mem_cons_of_mem _ hf)

theorem applyChanges_wrote {changes : List (Field × Option Str × Option Str)}
    (hc : ∀ c ∈ changes, c.1 ∈ mergeableFields (entityType R) ∧ p c.1)
    (h : applyChanges episodeKey source row s changes = .ok (row', events, s')) :
    Wrote p row s row' events s' := by
  induction changes generalizing row s events with
  | nil => cases h; exact .refl
  | cons c changes ih =>
    obtain ⟨f, old, new⟩ := c
    obtain ⟨row₁, hset, h⟩ := bind_ok h
    obtain ⟨⟨evt, s₁⟩, he, h⟩ := bind_ok h
    obtain ⟨⟨row₂, evts, s₂⟩, hr, h⟩ := bind_ok h
    cases h
    obtain ⟨hm, hp⟩ := hc (f, old, new) (by simp)
    have hrest := ih (fun c hm => hc c (List.mem_cons_of_mem _ hm)) hr
    exact ((setValue_wrote hm hp hset).trans (addEvent_wrote hp he)).trans hrest

theorem validateMergeableFields_ok {t : EntityType} {fields : List Field} {u : Unit}
    (h : validateMergeableFields t fields = .ok u) : ∀ f ∈ fields, f ∈ mergeableFields t := by
  unfold validateMergeableFields at h
  split at h
  · next hall => simpa using hall
  · cases h

/-- A merge writes unlocked fields it was given, and nothing else of the row. -/
theorem mergeInferredInSession_wrote {inferred : List (Field × Option Str)}
    (h : mergeInferredInSession s row inferred episodeKey source = .ok (row', events, s')) :
    ∃ mid, Wrote (fun f => f ∈ inferred.map Prod.fst ∧ f ∉ lockedFields row) row s row' events mid ∧
      s' = storeRow mid row' := by
  obtain ⟨_, hv, h⟩ := bind_ok h
  obtain ⟨⟨row₁, evts, mid⟩, hc, h⟩ := bind_ok h
  cases h
  refine ⟨mid, applyChanges_wrote ?_ hc, rfl⟩
  rintro ⟨f, old, new⟩ hm
  obtain ⟨hm, hl, -, -⟩ := mem_computeFieldChanges.mp hm
  have hf : f ∈ inferred.map Prod.fst := List.mem_map_of_mem hm
  exact ⟨validateMergeableFields_ok hv f hf, hf, hl⟩

theorem mergeInferredInSession_ok {inferred : List (Field × Option Str)}
    (h : mergeInferredInSession s row inferred episodeKey source = .ok (row', events, s')) :
    ∃ mid, Wrote (· ∉ lockedFields row) row s row' events mid ∧ s' = storeRow mid row' := by
  obtain ⟨mid, hw, hs⟩ := mergeInferredInSession_wrote h
  exact ⟨mid, hw.mono fun _ hf => hf.2, hs⟩

theorem suppressedEvents_wrote {term : TermDictionary} {vr : Option Str}
    (h : suppressedEvents s term vr episodeKey source = .ok (events, s')) :
    Wrote (· ∉ lockedFields term) term s term events s' := by
  unfold suppressedEvents at h
  split at h
  · next hc =>
    obtain ⟨⟨evt, s₁⟩, he, h⟩ := bind_ok h
    cases h
    simp only [renderingSuppressed, Bool.and_eq_true, decide_eq_true_eq] at hc
    exact addEvent_wrote hc.1.2 he
  · cases h
    exact .refl

/-- The fields of a term that a merge is given, with the suppressed rendering left out. -/
def inferredTerm (row : TermDictionary) (vr category : Option Str) (source : Str) :
    List (Field × Option Str) :=
  nonNull
    [(.vietnameseRendering, if renderingSuppressed row vr source then none else vr),
     (.category, category)]

/-- A new term, or the oldest row of the name with what was suppressed and what was merged. -/
theorem upsertTerm_cases {series : ℕ} {sourceTerm : Str} {vr category : Option Str}
    {r : TermDictionary}
    (h : upsertTermInSession s series sourceTerm vr category episodeKey source =
      .ok (r, events, s')) :
    findTerms s series sourceTerm = [] ∧
        createRow s
          ({ id := 0, seriesId := series, sourceTerm, category
             vietnameseRendering := vr.getD [] } : TermDictionary)
          [(.vietnameseRendering, vr), (.category, category)] episodeKey source =
            .ok (r, events, s') ∨
      ∃ row suppressed mid, row ∈ findTerms s series sourceTerm ∧
        suppressedEvents s row vr episodeKey source = .ok (suppressed, mid) ∧
        (r = row ∧ events = suppressed ∧ s' = mid ∨
          ∃ merged, mergeInferredInSession mid row (inferredTerm row vr category source) episodeKey
            source = .ok (r, merged, s') ∧ events = suppressed ++ merged) := by
  unfold upsertTermInSession at h
  split at h
  · next hnone => exact Or.inl ⟨List.argmin_eq_none.mp hnone, h⟩
  · next row hrow =>
    obtain ⟨⟨suppressed, mid⟩, hs, h⟩ := bind_ok h
    refine Or.inr ⟨row, suppressed, mid, List.argmin_mem hrow, hs, ?_⟩
    change ite (inferredTerm row vr category source = []) _ _ = _ at h
    by_cases hnothing : inferredTerm row vr category source = []
    · rw [if_pos hnothing] at h
      cases h
      exact Or.inl ⟨rfl, rfl, rfl⟩
    · rw [if_neg hnothing] at h
      obtain ⟨⟨row', merged, s₂⟩, hm, h⟩ := bind_ok h
      cases h
      exact Or.inr ⟨merged, hm, rfl⟩

/-- The pair's merge loop changes the fields it is given a new value for and may write. -/
theorem applyPairFields_wrote {pair pair' : AddressMap} {fields : List (Field × Option Str)}
    {locked : List Field} (hm : ∀ f ∈ fields, f.1 ∈ mergeableFields .addressMap)
    (hp : ∀ f v, (f, v) ∈ fields → v ≠ none → f ∉ locked → v ≠ value pair f → p f)
    (h : applyPairFields episodeKey source locked pair s fields = .ok (pair', events, s')) :
    Wrote p pair s pair' events s' := by
  induction fields generalizing pair s events with
  | nil => cases h; exact .refl
  | cons fv fields ih =>
    obtain ⟨f, v⟩ := fv
    have hm' := fun c hc => hm c (List.mem_cons_of_mem _ hc)
    unfold applyPairFields at h
    split at h
    · exact ih hm' (fun g w hg => hp g w (List.mem_cons_of_mem _ hg)) h
    · next hc =>
      obtain ⟨row₁, hset, h⟩ := bind_ok h
      obtain ⟨⟨evt, s₁⟩, he, h⟩ := bind_ok h
      obtain ⟨⟨row₂, evts, s₂⟩, hr, h⟩ := bind_ok h
      cases h
      rw [not_or, not_or] at hc
      obtain ⟨hnone, hlock, hval⟩ := hc
      have hf : f ∈ mergeableFields .addressMap := hm (f, v) (by simp)
      have hpf : p f := hp f v (by simp) hnone hlock (Ne.symm hval)
      have hw : Wrote p pair s row₁ [] s := setValue_wrote hf hpf hset
      refine (hw.trans (addEvent_wrote hpf he)).trans (ih hm' (fun g w hg hn hl hne => ?_) hr)
      rw [value_setValue hf hset] at hne
      split at hne
      · next heq => exact heq ▸ hpf
      · exact hp g w (List.mem_cons_of_mem _ hg) hn hl hne

/-- A field that is not locked takes the value it is given. -/
theorem applyPairFields_value {pair pair' : AddressMap} {fields : List (Field × Option Str)}
    {locked : List Field} {f : Field} {text : Str} (hm : ∀ f ∈ fields, f.1 ∈ mergeableFields .addressMap)
    (hd : (fields.map Prod.fst).Nodup) (hf : (f, some text) ∈ fields) (hopen : f ∉ locked)
    (h : applyPairFields episodeKey source locked pair s fields = .ok (pair', events, s')) :
    value pair' f = some text := by
  induction fields generalizing pair s events with
  | nil => cases hf
  | cons gv fields ih =>
    obtain ⟨g, v⟩ := gv
    have hm' := fun c hc => hm c (List.mem_cons_of_mem _ hc)
    rw [List.map_cons, List.nodup_cons] at hd
    obtain ⟨hfresh, hd⟩ := hd
    have hrest : ∀ {row row' : AddressMap} {t t' : Store} {evts : List BibleEvent},
        applyPairFields episodeKey source locked row t fields = .ok (row', evts, t') →
          Wrote (· ∈ fields.map Prod.fst) row t row' evts t' := fun h =>
      applyPairFields_wrote hm' (fun f _ hfv _ _ _ => List.mem_map_of_mem hfv) h
    unfold applyPairFields at h
    split at h
    · next hskip =>
      rcases List.mem_cons.mp hf with he | hf
      · cases he
        have hsame : value pair f = some text := by
          rcases hskip with hskip | hskip | hskip
          · cases hskip
          · exact (hopen hskip).elim
          · exact hskip
        exact ((hrest h).value_eq f hfresh).trans hsame
      · exact ih hm' hd hf h
    · obtain ⟨row₁, hset, h⟩ := bind_ok h
      obtain ⟨⟨evt, s₁⟩, he, h⟩ := bind_ok h
      obtain ⟨⟨row₂, evts, s₂⟩, hr, h⟩ := bind_ok h
      cases h
      rcases List.mem_cons.mp hf with heq | hf
      · cases heq
        have hgiven := value_setValue (hm (f, some text) List.mem_cons_self) hset f
        rw [if_pos rfl] at hgiven
        exact ((hrest hr).value_eq f hfresh).trans hgiven
      · exact ih hm' hd hf hr

theorem addRow_ok (h : addRow s row = .ok (row', s')) :
    row' = ((table s).insert row).1 ∧ s' = withTable s ((table s).insert row).2 := by
  unfold addRow at h
  split at h
  · cases h
  · cases h
    exact ⟨rfl, rfl⟩

theorem createRow_ok {fields : List (Field × Option Str)}
    (h : createRow s row fields episodeKey source = .ok (row', events, s')) :
    ∃ mid, addRow s row = .ok (row', mid) ∧ Wrote (fun _ => True) row' mid row' events s' := by
  obtain ⟨⟨r, mid⟩, ha, h⟩ := bind_ok h
  obtain ⟨⟨evts, s₁⟩, he, h⟩ := bind_ok h
  cases h
  exact ⟨mid, ha, (addCreationEvents_wrote he).mono fun _ _ => trivial⟩

/-- A new pair, or the fields of the one row of the pair that may be written. -/
theorem upsertAddressPair_cases {series spk addr : ℕ} {self address validFrom : Option Str}
    {r : AddressMap}
    (h : upsertAddressPairInSession s series spk addr self address validFrom episodeKey source =
      .ok (r, events, s')) :
    findAddressPair s series spk addr = [] ∧
        createRow s
          ({ id := 0, seriesId := series, speakerCharacterId := spk, addresseeCharacterId := addr
             selfTerm := self, addressTerm := address, validFromEpisode := validFrom } : AddressMap)
          [(.selfTerm, self), (.addressTerm, address), (.validFromEpisode, validFrom)] episodeKey
            source = .ok (r, events, s') ∨
      ∃ row mid, findAddressPair s series spk addr = [row] ∧
        applyPairFields episodeKey source row.lockedFields row s
          [(.selfTerm, self), (.addressTerm, address), (.validFromEpisode, validFrom)] =
            .ok (r, events, mid) ∧ s' = storeRow mid r := by
  obtain ⟨o, ho, h⟩ := bind_ok h
  cases o with
  | none => exact Or.inl ⟨oneOrNone_ok ho, h⟩
  | some row =>
    obtain ⟨⟨row', evts, mid⟩, hf, h⟩ := bind_ok h
    cases h
    exact Or.inr ⟨row, mid, oneOrNone_ok ho, hf, rfl⟩

theorem Wrote.table_eq (h : Wrote p row s row' events s') : table (R := R) s' = table s := by
  rw [h.store_eq, table_events]

theorem get?_of_select {q : R → Bool} (h : row ∈ (table s).select q) :
    (table s).get? (Keyed.id row) = some row :=
  Table.mem_iff_get?.mp (List.mem_of_mem_filter h)

theorem rowOfSeries_ok {id series : ℕ} (h : rowOfSeries R s id series = .ok row) :
    (table s).get? id = some row := by
  unfold rowOfSeries at h
  split at h
  · next r hr =>
    split at h <;> cases h
    exact hr
  · cases h

theorem relock_id (row : R) (f : Field) (b : Bool) : Keyed.id (relock row f b) = Keyed.id row := by
  unfold relock
  split
  · rw [id_withLocked]
  · split
    · rw [id_withLocked]
    · rfl

theorem relock_ident (row : R) (f : Field) (b : Bool) : ident (relock row f b) = ident row := by
  unfold relock
  split
  · rw [ident_withLocked]
  · split
    · rw [ident_withLocked]
    · rfl

theorem value_relock (row : R) (field : Field) (lock : Bool) (f : Field) :
    value (relock row field lock) f = value row f := by
  unfold relock
  split
  · rw [value_withLocked]
  · split
    · rw [value_withLocked]
    · rfl

/-- Storing a term as it is stored changes nothing. -/
theorem storeRow_self {term : TermDictionary} (h : (table s).get? (Keyed.id term) = some term) :
    storeRow s term = s := by
  have ht : s.termDictionary.put term = s.termDictionary := Table.put_self h
  simp only [storeRow, BibleRow.withTable, BibleRow.table, ht]

end Trezarr
