import Trezarr.Bible.Accounts
import Trezarr.Bible.Metadata

/-! The events of a field replay its history: from any row as it once was to the row as it is. -/
namespace Trezarr
open Text Rows BibleRow Fallible Journal Runs

/-- A transaction: one of the store's writes, or the row of a new series. -/
inductive BibleOp
  | write (op : StoreOp)
  | getOrCreateSeries (arrKind : Str) (arrSeriesId : ℤ) (metadata : ArrMetadata)

namespace BibleOp

def exec (s : Store) : BibleOp → Except StoreError Store
  | .write op => op.exec s
  | .getOrCreateSeries kind id metadata =>
    (Trezarr.getOrCreateSeries s kind id metadata).map (·.2)

def step (s : Store) (op : BibleOp) : Store := (exec s op).toOption.getD s

/-- The renderings an upsert logs and does not write. -/
def suppressedBy (s : Store) : BibleOp → List BibleEvent
  | .write (.upsertTerm seriesId sourceTerm vr category episodeKey source) =>
    match upsertTermInSession s seriesId sourceTerm vr category episodeKey source,
      (findTerms s seriesId sourceTerm).argmin TermDictionary.id with
    | .ok _, some existingRow =>
      match suppressedEvents s existingRow vr episodeKey source with
      | .ok (events, _) => events
      | .error _ => []
    | _, _ => []
  | _ => []

/-- The events of a transaction: first what it suppressed, then what it did. -/
def entries (s : Store) (op : BibleOp) : List LogEntry :=
  proposed (suppressedBy s op) ++
    applied ((step s op).bibleEvents.drop (s.bibleEvents.length + (suppressedBy s op).length))

/-- The events of a run. -/
def auditLog : Store → List BibleOp → List LogEntry
  | _, [] => []
  | s, op :: ops => entries s op ++ auditLog (step s op) ops

end BibleOp

def fresh (enforceFk : Bool) : Store := { enforceFk := enforceFk }

def LogEntry.change (e : LogEntry) : Option BibleEvent := if e.suppressed then none else some e.event

/-- The events of a field, the suppressed proposals left aside. -/
def changes (ref : RowRef) (field : Field) (log : List LogEntry) : List BibleEvent :=
  (fieldLog ref field log).filterMap LogEntry.change

variable {R : Type} [BibleRow R] {s s' mid : Store} {row row' row'' : R} {ref : RowRef}
  {episodeKey : Option Str} {source : Str} {field : Field} {oldVal newVal : Option Str}
  {events : List BibleEvent} {evt : BibleEvent} {log log' : List LogEntry}

/-- What the log of a step says of a field, by whether its row was there before and is there after. -/
inductive Carried (ref : RowRef) (field : Field) (log : List LogEntry) (s s' : Store) : Prop
  | absent (h : s.view ref = none) (h' : s'.view ref = none) (hlog : fieldLog ref field log = [])
  | created {v : RowView} (h : s.view ref = none) (h' : s'.view ref = some v)
      (hlog : ∃ start, FieldReplays ref field log start (v.value field))
  | kept {v v' : RowView} (h : s.view ref = some v) (h' : s'.view ref = some v')
      (hlog : FieldReplays ref field log (v.value field) (v'.value field))

/-- The log of a step is what it appended, and carries every field along. -/
structure Logged (s s' : Store) (log : List LogEntry) : Prop where
  events_eq : s'.bibleEvents = s.bibleEvents ++ log.map LogEntry.event
  carried : ∀ ref, ∀ f ∈ mergeableFields ref.1, Carried ref f log s s'

theorem carried_of_view_eq (h : s'.view ref = s.view ref) (hlog : fieldLog ref field log = []) :
    Carried ref field log s s' := by
  cases hv : s.view ref with
  | none => exact .absent hv (h.trans hv) hlog
  | some v =>
    refine .kept hv (h.trans hv) ?_
    rw [FieldReplays, hlog]
    rfl

theorem Carried.trans (h : Carried ref field log s mid) (h' : Carried ref field log' mid s') :
    Carried ref field (log ++ log') s s' := by
  cases h with
  | absent hs hm hlog =>
    cases h' with
    | absent _ hs' hlog' => exact .absent hs hs' (by rw [fieldLog_append, hlog, hlog']; rfl)
    | created _ hs' hlog' =>
      obtain ⟨start, hlog'⟩ := hlog'
      refine .created hs hs' ⟨start, ?_⟩
      rw [FieldReplays, fieldLog_append, hlog]
      exact hlog'
    | kept hm' => rw [hm] at hm'; cases hm'
  | created hs hm hlog =>
    cases h' with
    | absent hm' => rw [hm] at hm'; cases hm'
    | created hm' => rw [hm] at hm'; cases hm'
    | kept hm' hs' hlog' =>
      rw [hm] at hm'
      cases hm'
      obtain ⟨start, hlog⟩ := hlog
      refine .created hs hs' ⟨start, ?_⟩
      rw [FieldReplays, fieldLog_append]
      exact hlog.append hlog'
  | kept hs hm hlog =>
    cases h' with
    | absent hm' => rw [hm] at hm'; cases hm'
    | created hm' => rw [hm] at hm'; cases hm'
    | kept hm' hs' hlog' =>
      rw [hm] at hm'
      cases hm'
      refine .kept hs hs' ?_
      rw [FieldReplays, fieldLog_append]
      exact hlog.append hlog'

theorem Logged.refl : Logged s s [] where
  events_eq := by simp
  carried _ _ _ := carried_of_view_eq rfl rfl

theorem Logged.trans (h : Logged s mid log) (h' : Logged mid s' log') :
    Logged s s' (log ++ log') where
  events_eq := by rw [h'.events_eq, h.events_eq, List.map_append, List.append_assoc]
  carried ref f hf := (h.carried ref f hf).trans (h'.carried ref f hf)

/-- A step that touches one row is recorded when that row's fields are carried along. -/
theorem TouchesOnly.logged (h : TouchesOnly ref s s')
    (hev : s'.bibleEvents = s.bibleEvents ++ log.map LogEntry.event)
    (hrow : ∀ f ∈ mergeableFields ref.1, Carried ref f log s s') : Logged s s' log := by
  refine ⟨hev, fun ref' f hf => ?_⟩
  by_cases hr : ref' = ref
  · subst hr
    exact hrow f hf
  · refine carried_of_view_eq (h.view_eq ref' hr) (fieldLog_eq_nil fun e he habout => hr ?_)
    obtain ⟨evts, hev', habouts⟩ := h.events_eq
    have hsame : evts = log.map LogEntry.event := List.append_cancel_left (hev'.symm.trans hev)
    have hin : e.event ∈ evts := by
      rw [hsame]
      exact List.mem_map_of_mem he
    exact habout.1.symm.trans (habouts _ hin)

section Rows

variable [Viewed R]

theorem view_of_get? (h : (table s).get? (Keyed.id row) = some row) :
    s.view (rowRef row) = some (viewRow row) := by
  rw [rowRef, Viewed.view_self, h]
  rfl

theorem view_events (ref : RowRef) (events : List BibleEvent) :
    Store.view { s with bibleEvents := events } ref = s.view ref := by
  obtain ⟨⟨⟩, id⟩ := ref <;> rfl

theorem addRow_view (h : addRow s row = .ok (row', s')) :
    s'.view (rowRef row') = some (viewRow row') := by
  obtain ⟨rfl, rfl⟩ := addRow_ok h
  have hid : Keyed.id ((table (R := R) s).insert row).1 = (table (R := R) s).nextId := by
    rw [Table.insert_fst, Keyed.id_withId]
  rw [rowRef, Viewed.view_self, table_withTable, Table.get?_insert, hid, if_pos rfl]
  rfl

theorem logged_kept (last : R) (hrow : (table s).get? (Keyed.id row) = some row)
    (htouch : TouchesOnly (rowRef row) s s')
    (hev : s'.bibleEvents = s.bibleEvents ++ log.map LogEntry.event)
    (hview : s'.view (rowRef row) = some (viewRow last))
    (hlog : ∀ f ∈ mergeableFields (entityType R),
      FieldReplays (rowRef row) f log (value row f) (value last f)) : Logged s s' log :=
  htouch.logged hev fun f hf => .kept (view_of_get? hrow) hview (hlog f hf)

/-- The row that is stored at the end of a session has the values the session gave it. -/
theorem Accounts.logged (hrow : (table s).get? (Keyed.id row) = some row)
    (h : Accounts row s row' log mid) (hid : Keyed.id row'' = Keyed.id row')
    (hval : ∀ f, value row'' f = value row' f) : Logged s (storeRow mid row'') log := by
  have href : rowRef row'' = rowRef row := by
    rw [rowRef, hid]
    exact h.wrote.rowRef_eq
  have hstore := storeRow_touches mid row''
  rw [href] at hstore
  refine logged_kept row'' hrow (h.wrote.touches.trans hstore) ?_ ?_ fun f hf => ?_
  · rw [storeRow, Viewed.events_withTable, h.wrote.store_eq]
  · rw [← href, view_storeRow, href, h.wrote.store_eq, view_events, view_of_get? hrow]
    rfl
  · rw [hval f]
    exact h.replays f hf

/-- A new row, with events for values it has. -/
theorem logged_created (last : R) (ha : addRow s row = .ok (row', mid))
    (htouch : TouchesOnly (rowRef row') mid s')
    (hev : s'.bibleEvents = s.bibleEvents ++ log.map LogEntry.event)
    (hview : s'.view (rowRef row') = some (viewRow last))
    (hlog : ∀ f, ∃ v, FieldReplays (rowRef row') f log v (value last f)) : Logged s s' log := by
  obtain ⟨hadd, hnone⟩ := addRow_touches ha
  exact (hadd.trans htouch).logged hev fun f _ => .created hnone hview (hlog f)

theorem addRow_logged (h : addRow s row = .ok (row', s')) : Logged s s' [] := by
  refine logged_created row' h .refl ?_ (addRow_view h) fun f => ⟨_, rfl⟩
  obtain ⟨-, rfl⟩ := addRow_ok h
  rw [Viewed.events_withTable]
  simp

theorem createRow_logged {fields : List (Field × Option Str)}
    (hval : ∀ id f val, (f, some val) ∈ fields → value (Keyed.withId id row) f = some val)
    (hd : (fields.map Prod.fst).Nodup)
    (h : createRow s row fields episodeKey source = .ok (row', events, s')) :
    Logged s s' (applied events) := by
  obtain ⟨⟨r, mid⟩, ha, h⟩ := bind_ok h
  obtain ⟨⟨evts, s₁⟩, he, h⟩ := bind_ok h
  cases h
  have hw := addCreationEvents_wrote he
  obtain ⟨hrow, hmid⟩ := addRow_ok ha
  refine logged_created row' ha hw.touches ?_ ?_ fun f => ?_
  · rw [hw.store_eq, hmid, map_event_applied, Viewed.events_withTable]
  · rw [hw.store_eq, view_events]
    exact addRow_view ha
  · refine addCreationEvents_replays (fun f val hf => ?_) hd he f
    rw [hrow]
    exact hval _ f val hf

theorem editRow_logged {lock : Bool} (hrow : (table s).get? (Keyed.id row) = some row)
    (hm : field ∈ mergeableFields (entityType R))
    (h : editRow s row field newVal lock = .ok s') : ∃ events, Logged s s' (applied events) := by
  have htouch := editRow_touches h
  obtain ⟨row₁, hset, h⟩ := bind_ok h
  obtain ⟨⟨evt, s₁⟩, he, h⟩ := bind_ok h
  cases h
  obtain ⟨-, -, -, hs⟩ := addEvent_ok he
  have href : rowRef (relock row₁ field lock) = rowRef row := by
    rw [rowRef_relock, rowRef_setValue hset]
  refine ⟨[evt], logged_kept (relock row₁ field lock) hrow htouch ?_ ?_ fun f _ => ?_⟩
  · rw [hs, map_event_applied, storeRow, Viewed.events_withTable]
  · rw [hs, view_events, ← href, view_storeRow, href, view_of_get? hrow]
    rfl
  · rw [value_relock]
    exact change_replays hm hset he href

end Rows

theorem createTerm_logged {seriesId : ℕ} {sourceTerm : Str} {lock : Bool}
    (h : createTerm s seriesId sourceTerm field newVal lock = .ok s') :
    ∃ events, Logged s s' (applied events) := by
  unfold createTerm at h
  split at h
  · next hfield =>
    obtain ⟨⟨row, s₁⟩, ha, h⟩ := bind_ok h
    obtain ⟨⟨evt, s₂⟩, he, h⟩ := bind_ok h
    cases h
    obtain ⟨-, -, hname, hs⟩ := addEvent_ok he
    obtain ⟨-, hnew⟩ := addEvent_values he
    have href : rowRef (relock row field lock) = rowRef row := rowRef_relock field lock
    have htouch := (storeRow_touches s₁ (relock row field lock)).trans
      (addEvent_wrote (p := fun _ => True) trivial he).touches
    rw [href] at htouch
    obtain ⟨hrow, hmid⟩ := addRow_ok ha
    refine ⟨[evt], logged_created (relock row field lock) ha htouch ?_ ?_ fun f => ?_⟩
    · rw [hs, hmid, map_event_applied, storeRow, Viewed.events_withTable, Viewed.events_withTable]
    · rw [hs, view_events, ← href, view_storeRow, href, addRow_view ha]
      rfl
    · have hone : fieldLog (rowRef row) f (applied [evt]) =
          if evt.field = f then [⟨evt, false⟩] else [] :=
        fieldLog_single ((addEvent_ref he).trans href)
      refine ⟨if evt.field = f then evt.oldValue else value (relock row field lock) f, ?_⟩
      rw [FieldReplays, hone]
      split
      · next hf =>
        have hval : value row .vietnameseRendering = some (pyStr newVal) := by
          rw [hrow]
          rfl
        rw [value_relock, ← hf, hname, hfield, hval]
        exact ⟨rfl, hnew.symm⟩
      · rfl
  · cases h

section Writes

theorem nonNull_nodup {fields : List (Field × Option Str)} (hd : (fields.map Prod.fst).Nodup) :
    ((nonNull fields).map Prod.fst).Nodup :=
  (List.filter_sublist.map _).nodup hd

theorem upsertCharacter_logged {seriesId : ℕ} {name : Str} {gender roughAge role : Option Str}
    {r : Character} (h : upsertCharacterInSession s seriesId name gender roughAge role episodeKey
      source = .ok (r, events, s')) : Logged s s' (applied events) := by
  obtain ⟨o, ho, h⟩ := bind_ok h
  cases o with
  | none =>
    refine createRow_logged (fun id f val hf => ?_) (by simp) h
    simp only [List.mem_cons, List.not_mem_nil, or_false, Prod.mk.injEq] at hf
    rcases hf with ⟨rfl, rfl⟩ | ⟨rfl, rfl⟩ | ⟨rfl, rfl⟩ <;> rfl
  | some row =>
    simp only at h
    split at h
    · cases h
      exact .refl
    · obtain ⟨mid, hacc, rfl⟩ := mergeInferredInSession_accounts (nonNull_nodup (by simp)) h
      have hm : row ∈ findCharacter s seriesId name := by simp [oneOrNone_ok ho]
      exact hacc.logged (get?_of_select hm) rfl fun _ => rfl

theorem upsertAddressPair_logged {seriesId speaker addressee : ℕ}
    {selfTerm addressTerm validFrom : Option Str} {r : AddressMap}
    (h : upsertAddressPairInSession s seriesId speaker addressee selfTerm addressTerm validFrom
      episodeKey source = .ok (r, events, s')) : Logged s s' (applied events) := by
  obtain ⟨-, hc⟩ | ⟨row, mid, hrows, hf, rfl⟩ := upsertAddressPair_cases h
  · refine createRow_logged (fun id f val hf => ?_) (by simp) hc
    simp only [List.mem_cons, List.not_mem_nil, or_false, Prod.mk.injEq] at hf
    rcases hf with ⟨rfl, rfl⟩ | ⟨rfl, rfl⟩ | ⟨rfl, rfl⟩ <;> rfl
  · have hm : row ∈ findAddressPair s seriesId speaker addressee := by simp [hrows]
    have hacc := applyPairFields_accounts (by simp [mergeableFields]) hf
    exact hacc.logged (get?_of_select hm) rfl fun _ => rfl

theorem upsertTerm_logged {seriesId : ℕ} {sourceTerm : Str} {vr category : Option Str}
    {r : TermDictionary} (h : upsertTermInSession s seriesId sourceTerm vr category episodeKey
      source = .ok (r, events, s')) :
    ∃ rest, Logged s s' (proposed (BibleOp.suppressedBy s
      (.write (.upsertTerm seriesId sourceTerm vr category episodeKey source))) ++ applied rest) := by
  have hdone := h
  unfold upsertTermInSession at h
  split at h
  · next hnone =>
    have hsup : BibleOp.suppressedBy s
        (.write (.upsertTerm seriesId sourceTerm vr category episodeKey source)) = [] := by
      simp only [BibleOp.suppressedBy, hdone, hnone]
    rw [hsup]
    refine ⟨events, createRow_logged (fun id f val hf => ?_) (by simp) h⟩
    simp only [List.mem_cons, List.not_mem_nil, or_false, Prod.mk.injEq] at hf
    rcases hf with ⟨rfl, rfl⟩ | ⟨rfl, rfl⟩ <;> rfl
  · next row hrow =>
    obtain ⟨⟨suppressed, mid⟩, hs, h⟩ := bind_ok h
    have hsup : BibleOp.suppressedBy s
        (.write (.upsertTerm seriesId sourceTerm vr category episodeKey source)) = suppressed := by
      simp only [BibleOp.suppressedBy, hdone, hrow, hs]
    rw [hsup]
    have hget := get?_of_select (List.argmin_mem hrow)
    have hacc := suppressedEvents_accounts hs
    change ite (inferredTerm row vr category source = []) _ _ = _ at h
    split at h
    · cases h
      refine ⟨[], ?_⟩
      have hput : storeRow s' r = s' := storeRow_self (by rw [hacc.wrote.table_eq]; exact hget)
      rw [← hput, applied, List.map_nil, List.append_nil]
      exact hacc.logged hget rfl fun _ => rfl
    · obtain ⟨⟨row', merged, s₂⟩, hm, h⟩ := bind_ok h
      cases h
      obtain ⟨last, hacc', rfl⟩ := mergeInferredInSession_accounts (nonNull_nodup (by simp)) hm
      exact ⟨merged, (hacc.trans hacc').logged hget rfl fun _ => rfl⟩

theorem mergeInto_logged [Viewed R] {id : ℕ} {inferred : List (Field × Option Str)}
    (hd : (inferred.map Prod.fst).Nodup)
    (h : mergeInto R s id inferred episodeKey source = .ok s') :
    ∃ events, Logged s s' (applied events) := by
  obtain ⟨_, -, h⟩ := bind_ok h
  split at h
  · cases h
  · next row hrow =>
    obtain ⟨⟨row', evts, s₁⟩, hm, h⟩ := bind_ok h
    cases h
    obtain ⟨mid, hacc, rfl⟩ := mergeInferredInSession_accounts hd hm
    exact ⟨evts, hacc.logged (Table.get?_id hrow) rfl fun _ => rfl⟩

theorem mergeInferred_logged {entity : EntityType} {id : ℕ} {inferred : Dict Field (Option Str)}
    (h : mergeInferred s entity id inferred episodeKey source = .ok s') :
    ∃ events, Logged s s' (applied events) := by
  unfold mergeInferred at h
  split at h
  · cases h
  · cases entity with
    | character => exact mergeInto_logged inferred.nodup h
    | termDictionary => exact mergeInto_logged inferred.nodup h
    | series => exact mergeInto_logged inferred.nodup h
    | addressMap => cases h

theorem ensureEditable_ok {t : EntityType} {u : Unit} (h : ensureEditable t field = .ok u) :
    field ∈ mergeableFields t := by
  unfold ensureEditable at h
  split at h
  · next hm => exact hm
  · cases h

theorem editRow_of_series_logged [Viewed R] {id seriesId : ℕ} {lock : Bool}
    (hm : field ∈ mergeableFields (entityType R)) (hr : rowOfSeries R s id seriesId = .ok row)
    (h : editRow s row field newVal lock = .ok s') : ∃ events, Logged s s' (applied events) := by
  have hrow := rowOfSeries_ok hr
  exact editRow_logged (Table.get?_id hrow) hm h

theorem applyHumanEditAddressPair_logged {id seriesId : ℕ} {selfTerm addressTerm : Option Str}
    {lock : Bool} (h : applyHumanEditAddressPair s id seriesId selfTerm addressTerm lock = .ok s') :
    ∃ events, Logged s s' (applied events) := by
  obtain ⟨row, row₁, s₁, row₂, s₂, hr, h₁, h₂, rfl⟩ := applyHumanEditAddressPair_steps h
  obtain ⟨evs, hacc⟩ := editPairTerm_accounts (by simp [mergeableFields]) h₁
  obtain ⟨evs', hacc'⟩ := editPairTerm_accounts (by simp [mergeableFields]) h₂
  have hrow := rowOfSeries_ok hr
  refine ⟨evs ++ evs', ?_⟩
  rw [applied, List.map_append]
  refine (hacc.trans hacc').logged (Table.get?_id hrow) ?_ fun f => ?_
  · rw [relock_id, relock_id]
  · rw [value_relock, value_relock]

theorem applyHumanEditTerm_logged {seriesId : ℕ} {sourceTerm : Option Str} {termId : Option ℕ}
    {lock : Bool}
    (h : applyHumanEditTerm s seriesId sourceTerm termId field newVal lock = .ok s') :
    ∃ events, Logged s s' (applied events) := by
  cases termId with
  | some id =>
    obtain ⟨_, he, h⟩ := bind_ok h
    obtain ⟨row, hr, h⟩ := bind_ok h
    exact editRow_of_series_logged (ensureEditable_ok he) hr h
  | none =>
    cases sourceTerm with
    | none => cases h
    | some sourceTerm =>
      obtain ⟨_, he, h⟩ := bind_ok h
      obtain ⟨o, ho, h⟩ := bind_ok h
      cases o with
      | none => exact createTerm_logged h
      | some row =>
        have hm : row ∈ findTermExact s seriesId sourceTerm := by simp [oneOrNone_ok ho]
        exact editRow_logged (get?_of_select hm) (ensureEditable_ok he) h

theorem getOrCreateSeries_logged {kind : Str} {id : ℤ} {metadata : ArrMetadata} {r : Series}
    (h : getOrCreateSeries s kind id metadata = .ok (r, s')) : Logged s s' [] := by
  unfold getOrCreateSeries at h
  split at h
  · cases h
  · obtain ⟨o, -, h⟩ := bind_ok h
    cases o with
    | none => exact addRow_logged h
    | some row =>
      cases h
      exact .refl

end Writes

namespace BibleOp

theorem exec_logged {op : BibleOp} (h : op.exec s = .ok s') :
    ∃ rest, Logged s s' (proposed (op.suppressedBy s) ++ applied rest) := by
  cases op with
  | getOrCreateSeries kind id metadata =>
    obtain ⟨⟨_, _⟩, hc, rfl⟩ := map_ok h
    exact ⟨[], getOrCreateSeries_logged hc⟩
  | write op =>
    cases op with
    | upsertCharacter =>
      obtain ⟨⟨_, events, _⟩, hu, rfl⟩ := map_ok h
      exact ⟨events, upsertCharacter_logged hu⟩
    | upsertTerm =>
      obtain ⟨⟨_, _, _⟩, hu, rfl⟩ := map_ok h
      exact upsertTerm_logged hu
    | upsertAddressPair =>
      obtain ⟨⟨_, events, _⟩, hu, rfl⟩ := map_ok h
      exact ⟨events, upsertAddressPair_logged hu⟩
    | mergeInferred => exact mergeInferred_logged h
    | applyHumanEditCharacter =>
      obtain ⟨_, he, h⟩ := bind_ok h
      obtain ⟨row, hr, h⟩ := bind_ok h
      exact editRow_of_series_logged (ensureEditable_ok he) hr h
    | applyHumanEditAddressPair => exact applyHumanEditAddressPair_logged h
    | applyHumanEditTerm => exact applyHumanEditTerm_logged h
    | applyHumanEditSeries =>
      obtain ⟨_, he, h⟩ := bind_ok h
      obtain ⟨row, hr, h⟩ := bind_ok h
      exact editRow_of_series_logged (ensureEditable_ok he) hr h

/-- Only an upsert that succeeds has suppressed anything, and each proposal names what it met. -/
theorem suppressedBy_cases {op : BibleOp} {e : BibleEvent} (he : e ∈ op.suppressedBy s) :
    (∃ s', op.exec s = .ok s') ∧ ∃ row : TermDictionary,
      s.view (e.entityType, e.entityId) = some (viewRow row) ∧
        e.oldValue = value row e.field := by
  unfold suppressedBy at he
  split at he
  · next seriesId sourceTerm vr category episodeKey source =>
    split at he
    · next done row hdone hrow =>
      split at he
      · next events mid hs =>
        refine ⟨⟨done.2.2, ?_⟩, row, ?_⟩
        · simp only [exec, StoreOp.exec, hdone]
          rfl
        · unfold suppressedEvents at hs
          split at hs
          · obtain ⟨⟨evt, s₁⟩, ha, hs⟩ := bind_ok hs
            cases hs
            rw [List.mem_singleton] at he
            subst he
            obtain ⟨-, -, hfield, -⟩ := addEvent_ok ha
            obtain ⟨hold, -⟩ := addEvent_values ha
            rw [addEvent_ref ha, hfield, hold]
            exact ⟨view_of_get? (get?_of_select (List.argmin_mem hrow)), rfl⟩
          · cases hs
            cases he
      · cases he
    · cases he
  · cases he

theorem step_logged (s : Store) (op : BibleOp) : Logged s (op.step s) (op.entries s) := by
  cases h : op.exec s with
  | error e =>
    have hsup : op.suppressedBy s = [] := by
      rw [List.eq_nil_iff_forall_not_mem]
      intro e he
      obtain ⟨⟨s', hs'⟩, -⟩ := suppressedBy_cases he
      rw [h] at hs'
      cases hs'
    have hstep : op.step s = s := by
      rw [step, h]
      rfl
    rw [entries, hsup, hstep]
    simpa [proposed, applied] using Logged.refl
  | ok s' =>
    have hstep : op.step s = s' := by
      rw [step, h]
      rfl
    obtain ⟨rest, hrec⟩ := exec_logged h
    have hev := hrec.events_eq
    rw [List.map_append, map_event_proposed, map_event_applied, ← List.append_assoc] at hev
    have hrest : s'.bibleEvents.drop (s.bibleEvents.length + (op.suppressedBy s).length) = rest := by
      rw [hev, ← List.length_append, List.drop_left]
    rw [entries, hstep, hrest]
    exact hrec

theorem auditLog_logged (s : Store) (ops : List BibleOp) : Logged s (run step s ops) (auditLog s ops) := by
  induction ops generalizing s with
  | nil => exact .refl
  | cons op ops ih => exact (step_logged s op).trans (ih (op.step s))

end BibleOp

open BibleOp

/-- What the audit log says of one field of a row, at the end of a run and at every point of it. -/
structure Audited (start : Store) (ops : List BibleOp) (ref : RowRef) (field : Field) (v : RowView) :
    Prop where
  /-- The run's log is the event table. -/
  events_eq : (auditLog start ops).map LogEntry.event = (run step start ops).bibleEvents
  chain : (changes ref field (auditLog start ops)).IsChain fun e e' => e'.oldValue = e.newValue
  last : ∀ e ∈ (changes ref field (auditLog start ops)).getLast?, e.newValue = v.value field
  /-- A suppressed proposal names the value stored when it was made. -/
  suppressed : ∀ before op after, ops = before ++ op :: after →
    ∀ e ∈ op.suppressedBy (run step start before), (e.entityType, e.entityId) = ref →
      e.field = field → ∃ v₀, (run step start before).view ref = some v₀ ∧
        e.oldValue = v₀.value field
  /-- Since any moment at which the row was there, the changes lead from its value to the last. -/
  traced : ∀ before after, ops = before ++ after →
    ∀ v₀, (run step start before).view ref = some v₀ →
      Replays BibleEvent.oldValue BibleEvent.newValue (v₀.value field)
        (changes ref field (auditLog (run step start before) after)) (v.value field)

theorem FieldReplays.changes {v w : Option Str} (h : FieldReplays ref field log v w) :
    Replays BibleEvent.oldValue BibleEvent.newValue v (changes ref field log) w := by
  refine h.filterMap (fun e _ e' he' => ?_) fun e _ he => ?_
  · unfold LogEntry.change at he'
    unfold LogEntry.found LogEntry.left
    split at he'
    · cases he'
    · next hs =>
      cases he'
      rw [if_neg hs]
      exact ⟨rfl, rfl⟩
  · unfold LogEntry.change at he
    unfold LogEntry.found LogEntry.left
    split at he
    · next hs => rw [if_pos hs]
    · cases he

theorem audit_replay (enforceFk : Bool) (ops : List BibleOp) (ref : RowRef) (field : Field)
    (v : RowView) (hm : field ∈ mergeableFields ref.1)
    (hv : (run step (fresh enforceFk) ops).view ref = some v) :
    Audited (fresh enforceFk) ops ref field v := by
  have hrec := auditLog_logged (fresh enforceFk) ops
  have hnone : (fresh enforceFk).view ref = none := by
    obtain ⟨⟨⟩, id⟩ := ref <;> rfl
  have hreplays : ∃ start, FieldReplays ref field (auditLog (fresh enforceFk) ops) start
      (v.value field) := by
    cases hrec.carried ref field hm with
    | absent _ h => rw [hv] at h; cases h
    | created _ h hlog =>
      rw [hv] at h
      cases h
      exact hlog
    | kept h => rw [hnone] at h; cases h
  obtain ⟨start, hreplays⟩ := hreplays
  refine ⟨hrec.events_eq.symm, hreplays.changes.isChain, hreplays.changes.last, ?_, ?_⟩
  · rintro before op after - e he href hfield
    obtain ⟨-, row, hview, hold⟩ := suppressedBy_cases he
    rw [href] at hview
    rw [hfield] at hold
    exact ⟨_, hview, hold⟩
  · rintro before after rfl v₀ hv₀
    rw [run_append] at hv
    cases (auditLog_logged (run step (fresh enforceFk) before) after).carried ref field hm with
    | absent h => rw [hv₀] at h; cases h
    | created h => rw [hv₀] at h; cases h
    | kept h h' hlog =>
      rw [hv₀] at h
      rw [hv] at h'
      cases h
      cases h'
      exact hlog.changes

/-- A rendering is inferred, another is proposed and suppressed, and a curator writes it. -/
def khonsuRun : List BibleOp :=
  [.getOrCreateSeries "sonarr" 7 {},
   .write (.upsertTerm 1 "Khonshu" (some "Khonshu") none (some "S01E01") "inference"),
   .write (.upsertTerm 1 "khonshu" (some "Khonsu") (some "name") (some "S01E02") "inference"),
   .write (.applyHumanEditTerm 1 none (some 1) .vietnameseRendering (some "Khonsu") true)]

theorem khonsu_audited : ∃ v,
    (run step (fresh true) khonsuRun).view (.termDictionary, 1) = some v ∧
      v.value .vietnameseRendering = some "Khonsu".toList ∧
      Audited (fresh true) khonsuRun (.termDictionary, 1) .vietnameseRendering v := by
  have hvalue : ((run step (fresh true) khonsuRun).view (.termDictionary, 1)).map
      (·.value .vietnameseRendering) = some (some "Khonsu".toList) := by
    decide
  obtain ⟨v, hview, hvalue⟩ := Option.map_eq_some_iff.mp hvalue
  exact ⟨v, hview, hvalue, audit_replay true khonsuRun (.termDictionary, 1) .vietnameseRendering v
    (by decide) hview⟩

example : (changes (.termDictionary, 1) .vietnameseRendering
    (auditLog (fresh true) khonsuRun)).map (·.oldValue) = [none, some "Khonshu".toList] := by
  decide

end Trezarr
