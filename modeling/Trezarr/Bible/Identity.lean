import Trezarr.Bible.Frames

/-! One row for one name: names are one name when they agree trimmed and without regard to case. -/
namespace Trezarr
open Text Rows BibleRow Fallible Runs

variable {R : Type} [BibleRow R] {s s' mid : Store} {row : R} {episodeKey : Option Str}
  {source : Str} {events : List BibleEvent}

def nameKey (name : Str) : Str := lower (strip name)

def characterIdents (s : Store) : List (ℕ × Str) := s.characters.rows.map ident

def termIdents (s : Store) : List (ℕ × Str) := s.termDictionary.rows.map ident

/-- The keys of one series, one for each row. -/
def keysOf (series : ℕ) (idents : List (ℕ × Str)) : List Str :=
  (idents.filter (·.1 = series)).map (nameKey ·.2)

def UniqueNames (series : ℕ) (s : Store) : Prop :=
  (keysOf series (characterIdents s)).Nodup ∧ (keysOf series (termIdents s)).Nodup

def seriesStored (s : Store) (seriesId : ℕ) : Bool :=
  !s.enforceFk || (s.series.get? seriesId).isSome

/-- A new row and its events are stored unless a constraint fails. -/
def recordable (s : Store) (seriesId : ℕ) (fields : List (Field × Option Str)) (source : Str) :
    Bool :=
  seriesStored s seriesId && (nonNull fields = [] || (Source.ofName source).isSome)

/-- The name an operation stores a new character under: its own lookup found no row. -/
def newCharacter (s : Store) : StoreOp → Option (ℕ × Str)
  | .upsertCharacter seriesId name gender roughAge role _ source =>
    if findCharacter s seriesId name = [] ∧
        recordable s seriesId [(.gender, gender), (.roughAge, roughAge), (.role, role)] source then
      some (seriesId, name)
    else none
  | _ => none

def newTerm (s : Store) : StoreOp → Option (ℕ × Str)
  | .upsertTerm seriesId sourceTerm vr category _ source =>
    if findTerms s seriesId sourceTerm = [] ∧
        recordable s seriesId [(.vietnameseRendering, vr), (.category, category)] source then
      some (seriesId, sourceTerm)
    else none
  | .applyHumanEditTerm seriesId (some sourceTerm) none field _ _ =>
    if field = .vietnameseRendering ∧ findTermExact s seriesId sourceTerm = [] ∧
        seriesStored s seriesId then
      some (seriesId, sourceTerm)
    else none
  | _ => none

/-- No row that the operation's lookup missed has the name it is about to store. -/
def LookupSeesKey (series : ℕ) (s : Store) (op : StoreOp) : Prop :=
  (∀ name, newCharacter s op = some (series, name) →
    nameKey name ∉ keysOf series (characterIdents s)) ∧
  (∀ name, newTerm s op = some (series, name) → nameKey name ∉ keysOf series (termIdents s))

theorem keysOf_append_one {series n : ℕ} {name : Str} {idents : List (ℕ × Str)} :
    (keysOf series (idents ++ [(n, name)])).Nodup ↔
      (keysOf series idents).Nodup ∧ (n = series → nameKey name ∉ keysOf series idents) := by
  by_cases h : n = series
  · subst h
    simp only [keysOf, List.filter_append, List.filter_cons, decide_true, if_true, List.filter_nil,
      List.map_append, List.map_cons, List.map_nil, List.nodup_append, forall_const]
    constructor
    · rintro ⟨hn, -, hd⟩
      exact ⟨hn, fun hm => hd _ hm _ (by simp) rfl⟩
    · rintro ⟨hn, hm⟩
      refine ⟨hn, by simp, ?_⟩
      rintro a ha b hb rfl
      rw [List.mem_singleton] at hb
      exact hm (hb ▸ ha)
  · simp [keysOf, h]

theorem keysOf_append_option {series : ℕ} {o : Option (ℕ × Str)} {idents : List (ℕ × Str)} :
    (keysOf series (idents ++ o.toList)).Nodup ↔ (keysOf series idents).Nodup ∧
      ∀ name, o = some (series, name) → nameKey name ∉ keysOf series idents := by
  cases o with
  | none => simp
  | some i =>
    obtain ⟨n, name⟩ := i
    rw [Option.toList_some, keysOf_append_one]
    refine and_congr_right fun _ => ⟨?_, ?_⟩
    · rintro h _ he
      cases he
      exact h rfl
    · rintro h rfl
      exact h name rfl

instance (series : ℕ) (s : Store) : Decidable (UniqueNames series s) :=
  inferInstanceAs (Decidable (_ ∧ _))

def names (s : Store) : List (ℕ × Str) × List (ℕ × Str) := (characterIdents s, termIdents s)

instance : EventFree names := ⟨fun _ _ => rfl⟩

instance : TableFree names Series := ⟨fun _ _ => rfl⟩

instance : TableFree names AddressMap := ⟨fun _ _ => rfl⟩

instance : RowFree names Character :=
  ⟨fun h hi hn => Prod.ext (Table.map_put (hi ▸ h) hn) rfl⟩

instance : RowFree names TermDictionary :=
  ⟨fun h hi hn => Prod.ext rfl (Table.map_put (hi ▸ h) hn)⟩

theorem addEvent_of_stored (episodeKey : Option Str) (field : Field) (oldVal newVal : Option Str)
    (hs : seriesStored s (seriesId row) = true) (hv : (Source.ofName source).isSome) :
    ∃ r, addEvent s row episodeKey field oldVal newVal source = .ok r := by
  obtain ⟨src, hsrc⟩ := Option.isSome_iff_exists.mp hv
  unfold addEvent
  rw [hsrc]
  simp only [seriesStored, Bool.or_eq_true, Bool.not_eq_true'] at hs
  refine ⟨_, if_neg ?_⟩
  rcases hs with h | h <;> simp_all [Option.isSome_iff_ne_none]

theorem stored_of_addEvent {field : Field} {oldVal newVal : Option Str} {evt : BibleEvent}
    (h : addEvent s row episodeKey field oldVal newVal source = .ok (evt, s')) :
    seriesStored s (seriesId row) = true := by
  unfold addEvent at h
  split at h
  · cases h
  · split at h
    · cases h
    · next hfk =>
      rw [seriesStored, Bool.or_eq_true, Bool.not_eq_true']
      by_cases henforce : s.enforceFk = true
      · refine Or.inr ?_
        simpa [henforce, Option.isSome_iff_ne_none] using hfk
      · exact Or.inl (by simpa using henforce)

theorem addEvent_of_invalid {field : Field} {oldVal newVal : Option Str}
    (hv : (Source.ofName source).isSome = false) :
    addEvent s row episodeKey field oldVal newVal source = .error .integrityError := by
  rw [Option.isSome_eq_false_iff, Option.isNone_iff_eq_none] at hv
  rw [addEvent, hv]

/-- With its series stored, a new row's events fail only by their provenance. -/
theorem addCreationEvents_ok_iff (episodeKey : Option Str) {fields : List (Field × Option Str)}
    (hs : seriesStored s (seriesId row) = true) :
    (∃ r, addCreationEvents row episodeKey source s fields = .ok r) ↔
      nonNull fields = [] ∨ (Source.ofName source).isSome := by
  induction fields generalizing s with
  | nil => exact ⟨fun _ => Or.inl rfl, fun _ => ⟨_, rfl⟩⟩
  | cons fv fields ih =>
    obtain ⟨f, v⟩ := fv
    cases v with
    | none => simpa [addCreationEvents, nonNull] using ih hs
    | some v =>
      have hne : nonNull ((f, some v) :: fields) ≠ [] := by simp [nonNull]
      simp only [hne, false_or]
      constructor
      · rintro ⟨r, hr⟩
        obtain ⟨⟨evt, s₁⟩, he, -⟩ := bind_ok hr
        by_contra hv
        rw [addEvent_of_invalid (by simpa using hv)] at he
        cases he
      · intro hv
        obtain ⟨⟨evt, s₁⟩, he⟩ := addEvent_of_stored episodeKey f none (some v) hs hv
        have hs₁ : seriesStored s₁ (seriesId row) = true := by
          rw [(addEvent_wrote (p := fun _ => True) trivial he).store_eq]
          exact hs
        obtain ⟨⟨evts, s₂⟩, hr⟩ := (ih hs₁).mpr (Or.inr hv)
        refine ⟨(evt :: evts, s₂), ?_⟩
        simp only [addCreationEvents, he, hr, bind, Except.bind, pure, Except.pure]

/-- The names of both tables after an operation: those before it and the new one, if any. -/
def StoresNames (s : Store) (op : StoreOp) (s' : Store) : Prop :=
  characterIdents s' = characterIdents s ++ (newCharacter s op).toList ∧
    termIdents s' = termIdents s ++ (newTerm s op).toList

theorem storesNames_of_names {op : StoreOp} (h : names s' = names s) (hc : newCharacter s op = none)
    (ht : newTerm s op = none) : StoresNames s op s' := by
  simpa [StoresNames, hc, ht, names] using h

theorem storesNames_of_error {op : StoreOp} {err : StoreError} (h : op.exec s = .error err)
    (hc : newCharacter s op = none) (ht : newTerm s op = none) : StoresNames s op (op.step s) := by
  have hs : op.step s = s := by rw [StoreOp.step, h]; rfl
  rw [hs]
  exact storesNames_of_names rfl hc ht

theorem step_of_ok {op : StoreOp} (h : op.exec s = .ok s') : op.step s = s' := by
  rw [StoreOp.step, h]
  rfl

/-- An operation that stores no new name, whether it succeeds or raises. -/
theorem storesNames_of_frame {op : StoreOp} (hc : newCharacter s op = none)
    (ht : newTerm s op = none) (h : ∀ s', op.exec s = .ok s' → names s' = names s) :
    StoresNames s op (op.step s) := by
  cases he : op.exec s with
  | error err => exact storesNames_of_error he hc ht
  | ok s' =>
    rw [step_of_ok he]
    exact storesNames_of_names (h s' he) hc ht

theorem character_created {c row : Character} (h : addRow s c = .ok (row, mid)) :
    characterIdents mid = characterIdents s ++ [(c.seriesId, c.originalLatinName)] ∧
      termIdents mid = termIdents s ∧ seriesId row = c.seriesId ∧
      seriesStored mid = seriesStored s := by
  obtain ⟨rfl, rfl⟩ := addRow_ok h
  exact ⟨Table.map_insert, rfl, rfl, rfl⟩

theorem term_created {t row : TermDictionary} (h : addRow s t = .ok (row, mid)) :
    characterIdents mid = characterIdents s ∧
      termIdents mid = termIdents s ++ [(t.seriesId, t.sourceTerm)] ∧ seriesId row = t.seriesId ∧
      seriesStored mid = seriesStored s := by
  obtain ⟨rfl, rfl⟩ := addRow_ok h
  exact ⟨rfl, Table.map_insert, rfl, rfl⟩

theorem addRow_ok_iff (row : R) (hr : references s row = (s.series.get? (seriesId row)).isSome) :
    (∃ r, addRow s row = .ok r) ↔ seriesStored s (seriesId row) = true := by
  unfold addRow seriesStored
  rw [hr]
  cases s.enforceFk <;> cases (s.series.get? (seriesId row)).isSome <;> simp

/-- A new row and its events are stored exactly when the constraints hold. -/
theorem createRow_ok_iff (row : R) (fields : List (Field × Option Str)) (episodeKey : Option Str)
    (source : Str) (hr : references s row = (s.series.get? (seriesId row)).isSome)
    (hk : ∀ r t, addRow s row = .ok (r, t) →
      seriesId r = seriesId row ∧ seriesStored t = seriesStored s) :
    (∃ r, createRow s row fields episodeKey source = .ok r) ↔
      recordable s (seriesId row) fields source = true := by
  simp only [recordable, Bool.and_eq_true, Bool.or_eq_true, decide_eq_true_eq]
  rw [← addRow_ok_iff row hr]
  constructor
  · rintro ⟨r, h⟩
    obtain ⟨⟨r, t⟩, ha, h⟩ := bind_ok h
    obtain ⟨e, he, -⟩ := bind_ok h
    obtain ⟨hi, hs⟩ := hk r t ha
    refine ⟨⟨_, ha⟩, (addCreationEvents_ok_iff _ ?_).mp ⟨_, he⟩⟩
    rw [hs, hi]
    exact (addRow_ok_iff row hr).mp ⟨_, ha⟩
  · rintro ⟨⟨⟨r, t⟩, ha⟩, hv⟩
    obtain ⟨hi, hs⟩ := hk r t ha
    have hst : seriesStored t (seriesId r) = true := by
      rw [hs, hi]
      exact (addRow_ok_iff row hr).mp ⟨_, ha⟩
    obtain ⟨⟨e, u⟩, he⟩ := (addCreationEvents_ok_iff episodeKey hst).mpr hv
    refine ⟨(r, e, u), ?_⟩
    simp only [createRow, ha, he, bind, Except.bind, pure, Except.pure]

theorem storesNames_of_createRow {op : StoreOp} {fields : List (Field × Option Str)}
    (hx : op.exec s = (createRow s row fields episodeKey source).map (·.2.2))
    (hok : ∀ r e s', createRow s row fields episodeKey source = .ok (r, e, s') →
      StoresNames s op s')
    (hno : (¬ ∃ r, createRow s row fields episodeKey source = .ok r) →
      newCharacter s op = none ∧ newTerm s op = none) : StoresNames s op (op.step s) := by
  cases hc : createRow s row fields episodeKey source with
  | error err =>
    rw [hc] at hx
    obtain ⟨hn, ht⟩ := hno (by simp [hc])
    exact storesNames_of_error hx hn ht
  | ok r =>
    obtain ⟨r, e, s'⟩ := r
    rw [hc] at hx
    rw [step_of_ok hx]
    exact hok r e s' hc

theorem upsertCharacter_storesNames (s : Store) (series : ℕ) (name : Str)
    (gender roughAge role episodeKey : Option Str) (source : Str) :
    StoresNames s (.upsertCharacter series name gender roughAge role episodeKey source)
      (StoreOp.step s (.upsertCharacter series name gender roughAge role episodeKey source)) := by
  by_cases hf : findCharacter s series name = []
  · let c : Character :=
      { id := 0, seriesId := series, originalLatinName := name, gender, roughAge, role }
    have hiff := createRow_ok_iff (s := s) c
      [(.gender, gender), (.roughAge, roughAge), (.role, role)] episodeKey source rfl
      fun _ _ h => (character_created h).2.2
    have hx : StoreOp.exec s
        (.upsertCharacter series name gender roughAge role episodeKey source) =
        (createRow s c [(.gender, gender), (.roughAge, roughAge), (.role, role)] episodeKey
          source).map (·.2.2) := by
      simp only [StoreOp.exec, upsertCharacterInSession, hf]
      rfl
    refine storesNames_of_createRow hx (fun r e s' h => ?_) fun hno => ?_
    · obtain ⟨mid, ha, hw⟩ := createRow_ok h
      obtain ⟨hc, ht, -, -⟩ := character_created ha
      have hn : newCharacter s (.upsertCharacter series name gender roughAge role episodeKey source)
          = some (series, name) := if_pos ⟨hf, hiff.mp ⟨_, h⟩⟩
      obtain ⟨hc', ht'⟩ := Prod.ext_iff.mp (hw.frame (F := names))
      refine ⟨?_, ?_⟩
      · rw [hn]
        exact hc'.trans hc
      · exact (ht'.trans ht).trans (List.append_nil _).symm
    · exact ⟨if_neg fun h => hno (hiff.mpr h.2), rfl⟩
  · refine storesNames_of_frame (if_neg fun h => hf h.1) rfl fun s' h => ?_
    obtain ⟨⟨r, e, _⟩, hu, rfl⟩ := map_ok h
    exact upsertCharacter_frame_of_found hf hu

theorem upsertTerm_storesNames (s : Store) (series : ℕ) (sourceTerm : Str)
    (vr category episodeKey : Option Str) (source : Str) :
    StoresNames s (.upsertTerm series sourceTerm vr category episodeKey source)
      (StoreOp.step s (.upsertTerm series sourceTerm vr category episodeKey source)) := by
  by_cases hf : findTerms s series sourceTerm = []
  · let t : TermDictionary :=
      { id := 0, seriesId := series, sourceTerm, category, vietnameseRendering := vr.getD [] }
    have hiff := createRow_ok_iff (s := s) t
      [(.vietnameseRendering, vr), (.category, category)] episodeKey source rfl
      fun _ _ h => (term_created h).2.2
    have hx : StoreOp.exec s (.upsertTerm series sourceTerm vr category episodeKey source) =
        (createRow s t [(.vietnameseRendering, vr), (.category, category)] episodeKey
          source).map (·.2.2) := by
      simp only [StoreOp.exec, upsertTermInSession, hf, List.argmin_nil]
      rfl
    refine storesNames_of_createRow hx (fun r e s' h => ?_) fun hno => ?_
    · obtain ⟨mid, ha, hw⟩ := createRow_ok h
      obtain ⟨hc, ht, -, -⟩ := term_created ha
      have hn : newTerm s (.upsertTerm series sourceTerm vr category episodeKey source)
          = some (series, sourceTerm) := if_pos ⟨hf, hiff.mp ⟨_, h⟩⟩
      obtain ⟨hc', ht'⟩ := Prod.ext_iff.mp (hw.frame (F := names))
      refine ⟨?_, ?_⟩
      · exact (hc'.trans hc).trans (List.append_nil _).symm
      · rw [hn]
        exact ht'.trans ht
    · exact ⟨rfl, if_neg fun h => hno (hiff.mpr h.2)⟩
  · refine storesNames_of_frame rfl (if_neg fun h => hf h.1) fun s' h => ?_
    obtain ⟨⟨r, e, _⟩, hu, rfl⟩ := map_ok h
    exact upsertTerm_frame_of_found hf hu

theorem createTerm_ok {series : ℕ} {sourceTerm : Str} {newValue : Option Str} {lock : Bool}
    (h : createTerm s series sourceTerm .vietnameseRendering newValue lock = .ok s') :
    characterIdents s' = characterIdents s ∧
      termIdents s' = termIdents s ++ [(series, sourceTerm)] := by
  obtain ⟨⟨row, mid⟩, ha, h⟩ := bind_ok h
  obtain ⟨⟨evt, s₂⟩, he, h⟩ := bind_ok h
  cases h
  obtain ⟨hc, ht, -, -⟩ := term_created ha
  have hget : (table mid).get? (Keyed.id row) = some row := by
    obtain ⟨rfl, rfl⟩ := addRow_ok ha
    rw [table_withTable, Table.get?_insert, Table.insert_fst, Keyed.id_withId, if_pos rfl]
  have hs : names (storeRow mid (relock row .vietnameseRendering lock)) = names mid :=
    RowFree.storeRow_eq hget (relock_id row .vietnameseRendering lock)
      (relock_ident row .vietnameseRendering lock)
  have hw := addEvent_wrote (p := fun _ => True) trivial he
  obtain ⟨hc', ht'⟩ := Prod.ext_iff.mp (hw.frame.trans hs)
  exact ⟨hc'.trans hc, ht'.trans ht⟩

theorem createTerm_ok_iff {series : ℕ} {sourceTerm : Str} {newValue : Option Str} {lock : Bool} :
    (∃ s', createTerm s series sourceTerm .vietnameseRendering newValue lock = .ok s') ↔
      seriesStored s series = true := by
  let t : TermDictionary :=
    { id := 0, seriesId := series, sourceTerm, vietnameseRendering := pyStr newValue }
  have hiff := addRow_ok_iff (s := s) t rfl
  constructor
  · rintro ⟨s', h⟩
    obtain ⟨r, ha, -⟩ := bind_ok h
    exact hiff.mp ⟨r, ha⟩
  · intro hs
    obtain ⟨⟨row, mid⟩, ha⟩ := hiff.mpr hs
    obtain ⟨-, -, hi, hst⟩ := term_created ha
    have hv : (Source.ofName (humanSource lock)).isSome := by cases lock <;> decide
    have hid : seriesId (relock row .vietnameseRendering lock) = series := by
      have := congrArg Prod.fst (relock_ident row .vietnameseRendering lock)
      exact this.trans hi
    have hst' : seriesStored (storeRow mid (relock row .vietnameseRendering lock))
        (seriesId (relock row .vietnameseRendering lock)) = true := by
      rw [hid]
      exact (congrFun hst series).trans hs
    obtain ⟨⟨evt, s₂⟩, he⟩ := addEvent_of_stored none .vietnameseRendering none
      (some (pyStr newValue)) hst' hv
    refine ⟨s₂, ?_⟩
    simp only [t] at ha
    simp only [createTerm, if_true, ha, he, bind, Except.bind, pure, Except.pure]

theorem applyHumanEditTerm_storesNames (s : Store) (series : ℕ) (sourceTerm : Option Str)
    (termId : Option ℕ) (field : Field) (newValue : Option Str) (lock : Bool) :
    StoresNames s (.applyHumanEditTerm series sourceTerm termId field newValue lock)
      (StoreOp.step s (.applyHumanEditTerm series sourceTerm termId field newValue lock)) := by
  cases termId with
  | some id =>
    refine storesNames_of_frame rfl (by cases sourceTerm <;> rfl) fun s' h => ?_
    obtain ⟨_, -, h⟩ := bind_ok h
    obtain ⟨row, hr, h⟩ := bind_ok h
    exact editRow_frame (rowOfSeries_self hr) h
  | none =>
    cases sourceTerm with
    | none => exact storesNames_of_frame rfl rfl fun s' h => by cases h
    | some sourceTerm =>
      by_cases hf : findTermExact s series sourceTerm = []
      · by_cases hv : field = .vietnameseRendering
        · subst hv
          have hx : StoreOp.exec s
              (.applyHumanEditTerm series (some sourceTerm) none .vietnameseRendering newValue lock)
              = createTerm s series sourceTerm .vietnameseRendering newValue lock := by
            simp only [StoreOp.exec, applyHumanEditTerm, hf]
            rfl
          cases hc : createTerm s series sourceTerm .vietnameseRendering newValue lock with
          | error err =>
            refine storesNames_of_error (hx.trans hc) rfl (if_neg fun h => ?_)
            obtain ⟨_, hs⟩ := createTerm_ok_iff.mpr h.2.2
            cases hc.symm.trans hs
          | ok s' =>
            obtain ⟨hn, ht⟩ := createTerm_ok hc
            have hnew : newTerm s
                (.applyHumanEditTerm series (some sourceTerm) none .vietnameseRendering newValue
                  lock) = some (series, sourceTerm) :=
              if_pos ⟨rfl, hf, createTerm_ok_iff.mp ⟨_, hc⟩⟩
            rw [step_of_ok (hx.trans hc)]
            refine ⟨hn.trans (List.append_nil _).symm, ?_⟩
            rw [ht, hnew]
            rfl
        · refine storesNames_of_frame rfl (if_neg fun h => hv h.1) fun s' h => ?_
          obtain ⟨_, -, h⟩ := bind_ok h
          rw [hf] at h
          obtain ⟨_, ho, h⟩ := bind_ok h
          cases ho
          simp [createTerm, hv] at h
      · refine storesNames_of_frame rfl (if_neg fun h => hf h.2.1) fun s' h => ?_
        obtain ⟨_, -, h⟩ := bind_ok h
        obtain ⟨o, ho, h⟩ := bind_ok h
        cases o with
        | none => exact (hf (oneOrNone_ok ho)).elim
        | some row =>
          have hm : row ∈ findTermExact s series sourceTerm := by simp [oneOrNone_ok ho]
          exact editRow_frame (get?_of_select hm) h

/-- What every operation does to the names of the store, the failing ones included. -/
theorem step_storesNames (s : Store) (op : StoreOp) : StoresNames s op (op.step s) := by
  cases op with
  | upsertCharacter => exact upsertCharacter_storesNames ..
  | upsertTerm => exact upsertTerm_storesNames ..
  | applyHumanEditTerm => exact applyHumanEditTerm_storesNames ..
  | upsertAddressPair =>
    refine storesNames_of_frame rfl rfl fun s' h => ?_
    obtain ⟨⟨_, _, _⟩, hu, rfl⟩ := map_ok h
    exact upsertAddressPair_frame hu
  | mergeInferred => exact storesNames_of_frame rfl rfl fun s' h => mergeInferred_frame h
  | applyHumanEditCharacter =>
    refine storesNames_of_frame rfl rfl fun s' h => ?_
    obtain ⟨_, -, h⟩ := bind_ok h
    obtain ⟨row, hr, h⟩ := bind_ok h
    exact editRow_frame (rowOfSeries_self hr) h
  | applyHumanEditSeries =>
    refine storesNames_of_frame rfl rfl fun s' h => ?_
    obtain ⟨_, -, h⟩ := bind_ok h
    obtain ⟨row, hr, h⟩ := bind_ok h
    exact editRow_frame (rowOfSeries_self hr) h
  | applyHumanEditAddressPair =>
    exact storesNames_of_frame rfl rfl fun s' h => applyHumanEditAddressPair_frame h

theorem uniqueNames_step (series : ℕ) (s : Store) (op : StoreOp) :
    UniqueNames series (op.step s) ↔ UniqueNames series s ∧ LookupSeesKey series s op := by
  obtain ⟨hc, ht⟩ := step_storesNames s op
  rw [UniqueNames, hc, ht, keysOf_append_option, keysOf_append_option, UniqueNames, LookupSeesKey]
  tauto

/-- A name is stored twice exactly when some lookup misses the row that has it. -/
theorem unique_names_iff (series : ℕ) (s : Store) (ops : List StoreOp) :
    (∀ before after, ops = before ++ after → UniqueNames series (run StoreOp.step s before)) ↔
      UniqueNames series s ∧ Along StoreOp.step (LookupSeesKey series) s ops := by
  induction ops generalizing s with
  | nil =>
    simp only [along_nil, and_true]
    constructor
    · exact fun h => h [] [] rfl
    · intro h before after he
      rw [(List.nil_eq_append_iff.mp he).1]
      exact h
  | cons op ops ih =>
    rw [along_cons, ← and_assoc, ← uniqueNames_step, ← ih]
    constructor
    · intro h before after he
      exact h (op :: before) after (by rw [he, List.cons_append])
    · intro h before after he
      cases before with
      | nil => exact ((uniqueNames_step series s op).mp (h [] ops rfl)).1
      | cons op' before =>
        obtain ⟨rfl, ht⟩ := List.cons_eq_cons.mp he
        exact h before after ht

def newSeries : Store where
  series := ⟨[{ id := 1 }], nodup_firstSeries⟩

/-- The stored name folds to itself in the query, its capital being none of the ASCII letters. -/
theorem lukasz_twice : ¬ UniqueNames 1 (run StoreOp.step newSeries
    [.upsertCharacter 1 "Łukasz" none none none none "inference",
     .upsertCharacter 1 "Łukasz" none none none none "inference"]) := by
  decide

end Trezarr
