import Trezarr.Bible.Locks
import Trezarr.Lib.Journal

/-! What a session logs accounts for what it writes: event by event, field by field. -/
namespace Trezarr
open Text Rows BibleRow Fallible Journal

/-- An event of the log, and whether it is a proposal that was logged only. -/
structure LogEntry where
  event : BibleEvent
  suppressed : Bool
  deriving DecidableEq, Repr

namespace LogEntry

def found (e : LogEntry) : Option Str := e.event.oldValue

def left (e : LogEntry) : Option Str := if e.suppressed then e.event.oldValue else e.event.newValue

def About (ref : RowRef) (field : Field) (e : LogEntry) : Prop :=
  (e.event.entityType, e.event.entityId) = ref ∧ e.event.field = field

instance (ref : RowRef) (field : Field) (e : LogEntry) : Decidable (e.About ref field) := by
  unfold About
  infer_instance

end LogEntry

def applied (events : List BibleEvent) : List LogEntry := events.map (⟨·, false⟩)

def proposed (events : List BibleEvent) : List LogEntry := events.map (⟨·, true⟩)

def fieldLog (ref : RowRef) (field : Field) (log : List LogEntry) : List LogEntry :=
  log.filter (·.About ref field)

abbrev FieldReplays (ref : RowRef) (field : Field) (log : List LogEntry) (v w : Option Str) : Prop :=
  Replays LogEntry.found LogEntry.left v (fieldLog ref field log) w

variable {R : Type} [BibleRow R] {s s' mid : Store} {row row' row'' : R} {ref : RowRef}
  {episodeKey : Option Str} {source : Str} {field : Field} {oldVal newVal : Option Str}
  {events : List BibleEvent} {evt : BibleEvent} {log log' : List LogEntry}

@[simp] theorem map_event_applied : (applied events).map LogEntry.event = events := by
  simp [applied, Function.comp_def]

@[simp] theorem map_event_proposed : (proposed events).map LogEntry.event = events := by
  simp [proposed, Function.comp_def]

@[simp] theorem fieldLog_append :
    fieldLog ref field (log ++ log') = fieldLog ref field log ++ fieldLog ref field log' :=
  List.filter_append ..

theorem fieldLog_eq_nil (h : ∀ e ∈ log, ¬ e.About ref field) : fieldLog ref field log = [] := by
  rw [fieldLog, List.filter_eq_nil_iff]
  intro e he
  simpa using h e he

theorem fieldLog_single {e : LogEntry} (hr : (e.event.entityType, e.event.entityId) = ref) :
    fieldLog ref field [e] = if e.event.field = field then [e] else [] := by
  have habout : e.About ref field ↔ e.event.field = field := by
    simp only [LogEntry.About, hr, true_and]
  simp only [fieldLog, List.filter_cons, List.filter_nil, decide_eq_true_eq, habout]

/-- What a session wrote of one row, with a log that leads every field to its value. -/
structure Accounts (row : R) (s : Store) (row' : R) (log : List LogEntry) (s' : Store) :
    Prop where
  wrote : Wrote (fun _ => True) row s row' (log.map LogEntry.event) s'
  replays : ∀ f ∈ mergeableFields (entityType R),
    FieldReplays (rowRef row) f log (value row f) (value row' f)

theorem Accounts.refl : Accounts row s row [] s := ⟨.refl, fun _ _ => rfl⟩

theorem Accounts.trans {s'' : Store} (h : Accounts row s row' log s')
    (h' : Accounts row' s' row'' log' s'') : Accounts row s row'' (log ++ log') s'' where
  wrote := by
    rw [List.map_append]
    exact h.wrote.trans h'.wrote
  replays f hf := by
    rw [FieldReplays, fieldLog_append]
    refine (h.replays f hf).append ?_
    have hrest := h'.replays f hf
    rwa [h.wrote.rowRef_eq] at hrest

theorem addEvent_ref (h : addEvent s row episodeKey field oldVal newVal source = .ok (evt, s')) :
    (evt.entityType, evt.entityId) = rowRef row := by
  obtain ⟨ht, hi, -⟩ := addEvent_ok h
  rw [ht, hi, rowRef]

/-- A proposal names the value that is kept. -/
theorem accounts_proposed
    (h : addEvent s row episodeKey field (value row field) newVal source = .ok (evt, s')) :
    Accounts row s row (proposed [evt]) s' where
  wrote := addEvent_wrote trivial h
  replays f _ := by
    rw [FieldReplays, proposed, List.map_singleton, fieldLog_single (addEvent_ref h)]
    obtain ⟨-, -, hfield, -⟩ := addEvent_ok h
    obtain ⟨hold, -⟩ := addEvent_values h
    split
    · next he =>
      have hf : field = f := hfield.symm.trans he
      subst hf
      exact ⟨hold, hold.symm⟩
    · rfl

/-- A change and the event that names it. -/
theorem change_replays (hm : field ∈ mergeableFields (entityType R))
    (hset : setValue row field newVal = .ok row')
    (h : addEvent s row'' episodeKey field (value row field) newVal source = .ok (evt, s'))
    (href : rowRef row'' = rowRef row) {f : Field} :
    FieldReplays (rowRef row) f (applied [evt]) (value row f) (value row' f) := by
  have habout := (addEvent_ref h).trans href
  rw [FieldReplays, applied, List.map_singleton, fieldLog_single habout, value_setValue hm hset]
  obtain ⟨-, -, hfield, -⟩ := addEvent_ok h
  obtain ⟨hold, hnew⟩ := addEvent_values h
  by_cases he : evt.field = f
  · have heq : field = f := hfield.symm.trans he
    subst heq
    rw [if_pos he, if_pos rfl]
    exact ⟨hold, hnew.symm⟩
  · have hne : f ≠ field := fun heq => he (hfield.trans heq.symm)
    rw [if_neg he, if_neg hne]
    rfl

theorem rowRef_setValue (h : setValue row field newVal = .ok row') : rowRef row' = rowRef row :=
  congrArg (Prod.mk (entityType R)) (id_setValue h)

theorem accounts_change (hm : field ∈ mergeableFields (entityType R))
    (hset : setValue row field newVal = .ok row')
    (h : addEvent s row' episodeKey field (value row field) newVal source = .ok (evt, s')) :
    Accounts row s row' (applied [evt]) s' where
  wrote := (setValue_wrote hm trivial hset).trans (addEvent_wrote trivial h)
  replays _ _ := change_replays hm hset h (rowRef_setValue hset)

/-- Each change names the value the row had: no field is changed twice. -/
theorem applyChanges_accounts {changes : List (Field × Option Str × Option Str)}
    (hc : ∀ c ∈ changes, c.1 ∈ mergeableFields (entityType R) ∧ c.2.1 = value row c.1)
    (hd : (changes.map Prod.fst).Nodup)
    (h : applyChanges episodeKey source row s changes = .ok (row', events, s')) :
    Accounts row s row' (applied events) s' := by
  induction changes generalizing row s events with
  | nil => cases h; exact .refl
  | cons c changes ih =>
    obtain ⟨f, old, new⟩ := c
    obtain ⟨row₁, hset, h⟩ := bind_ok h
    obtain ⟨⟨evt, s₁⟩, he, h⟩ := bind_ok h
    obtain ⟨⟨row₂, evts, s₂⟩, hr, h⟩ := bind_ok h
    cases h
    obtain ⟨hm, hold⟩ := hc (f, old, new) List.mem_cons_self
    rw [List.map_cons, List.nodup_cons] at hd
    obtain ⟨hfresh, hd⟩ := hd
    simp only at hm hold hfresh
    subst hold
    have hrest : ∀ c ∈ changes, c.1 ∈ mergeableFields (entityType R) ∧ c.2.1 = value row₁ c.1 := by
      intro c hmem
      obtain ⟨hcm, hcold⟩ := hc c (List.mem_cons_of_mem _ hmem)
      have hne : c.1 ≠ f := by
        intro heq
        exact hfresh (heq ▸ List.mem_map_of_mem hmem)
      rw [value_setValue hm hset, if_neg hne]
      exact ⟨hcm, hcold⟩
    exact (accounts_change hm hset he).trans (ih hrest hd hr)

theorem computeFieldChanges_nodup {inferred : List (Field × Option Str)} {locked : List Field}
    (hd : (inferred.map Prod.fst).Nodup) :
    ((computeFieldChanges row inferred locked).map Prod.fst).Nodup := by
  refine (map_filterMap_sublist (k := Prod.fst) (fun fv c hc => ?_) _).nodup hd
  obtain ⟨f, v⟩ := fv
  simp only at hc
  split at hc
  · cases hc
  · split at hc
    · cases hc
    · cases hc
      rfl

theorem mergeInferredInSession_accounts {inferred : List (Field × Option Str)}
    (hd : (inferred.map Prod.fst).Nodup)
    (h : mergeInferredInSession s row inferred episodeKey source = .ok (row', events, s')) :
    ∃ mid, Accounts row s row' (applied events) mid ∧ s' = storeRow mid row' := by
  obtain ⟨_, hv, h⟩ := bind_ok h
  obtain ⟨⟨row₁, evts, mid⟩, hc, h⟩ := bind_ok h
  cases h
  refine ⟨mid, applyChanges_accounts ?_ (computeFieldChanges_nodup hd) hc, rfl⟩
  rintro ⟨f, old, new⟩ hm
  obtain ⟨hm, -, -, hold⟩ := mem_computeFieldChanges.mp hm
  exact ⟨validateMergeableFields_ok hv f (List.mem_map_of_mem hm), hold⟩

theorem suppressedEvents_accounts {term : TermDictionary} {vr : Option Str}
    (h : suppressedEvents s term vr episodeKey source = .ok (events, s')) :
    Accounts term s term (proposed events) s' := by
  unfold suppressedEvents at h
  split at h
  · obtain ⟨⟨evt, s₁⟩, he, h⟩ := bind_ok h
    cases h
    exact accounts_proposed he
  · cases h
    exact .refl

theorem applyPairFields_accounts {pair pair' : AddressMap} {fields : List (Field × Option Str)}
    {locked : List Field} (hm : ∀ f ∈ fields, f.1 ∈ mergeableFields .addressMap)
    (h : applyPairFields episodeKey source locked pair s fields = .ok (pair', events, s')) :
    Accounts pair s pair' (applied events) s' := by
  induction fields generalizing pair s events with
  | nil => cases h; exact .refl
  | cons fv fields ih =>
    obtain ⟨f, v⟩ := fv
    have hm' := fun c hc => hm c (List.mem_cons_of_mem _ hc)
    unfold applyPairFields at h
    split at h
    · exact ih hm' h
    · obtain ⟨row₁, hset, h⟩ := bind_ok h
      obtain ⟨⟨evt, s₁⟩, he, h⟩ := bind_ok h
      obtain ⟨⟨row₂, evts, s₂⟩, hr, h⟩ := bind_ok h
      cases h
      exact (accounts_change (hm (f, v) List.mem_cons_self) hset he).trans (ih hm' hr)

theorem editPairTerm_accounts {pair pair' : AddressMap} {term : Option Str} {lock : Bool}
    (hm : field ∈ mergeableFields .addressMap)
    (h : editPairTerm s pair field term lock = .ok (pair', s')) :
    ∃ events, Accounts pair s pair' (applied events) s' := by
  rcases editPairTerm_cases h with ⟨rfl, rfl⟩ | ⟨new, evt, hset, he⟩
  · exact ⟨[], .refl⟩
  · exact ⟨[evt], accounts_change hm hset he⟩

/-- A new row's log is one event for every field it has a value for. -/
theorem addCreationEvents_replays {fields : List (Field × Option Str)}
    (hval : ∀ f val, (f, some val) ∈ fields → value row f = some val)
    (hd : (fields.map Prod.fst).Nodup)
    (h : addCreationEvents row episodeKey source s fields = .ok (events, s')) (f : Field) :
    ∃ v, FieldReplays (rowRef row) f (applied events) v (value row f) := by
  induction fields generalizing s events with
  | nil =>
    cases h
    exact ⟨_, rfl⟩
  | cons gv fields ih =>
    obtain ⟨g, val⟩ := gv
    have hval' := fun f val hm => hval f val (List.mem_cons_of_mem _ hm)
    rw [List.map_cons, List.nodup_cons] at hd
    obtain ⟨hfresh, hd⟩ := hd
    cases val with
    | none => exact ih hval' hd h
    | some val =>
      obtain ⟨⟨evt, s₁⟩, he, h⟩ := bind_ok h
      obtain ⟨⟨evts, s₂⟩, hr, h⟩ := bind_ok h
      cases h
      obtain ⟨-, -, hfield, -⟩ := addEvent_ok he
      obtain ⟨-, hnew⟩ := addEvent_values he
      have hsplit : fieldLog (rowRef row) f (applied (evt :: evts)) =
          fieldLog (rowRef row) f (applied [evt]) ++ fieldLog (rowRef row) f (applied evts) := by
        rw [← fieldLog_append]
        rfl
      have hone : fieldLog (rowRef row) f (applied [evt]) = if evt.field = f then [⟨evt, false⟩] else [] :=
        fieldLog_single (addEvent_ref he)
      by_cases hg : evt.field = f
      · -- the field is named once, so this event is the field's only one
        have hrest : fieldLog (rowRef row) f (applied evts) = [] := by
          refine fieldLog_eq_nil fun e hmem habout => hfresh ?_
          obtain ⟨e', he', rfl⟩ := List.mem_map.mp hmem
          obtain ⟨-, -, hname⟩ := (addCreationEvents_wrote hr).about e' he'
          rwa [← hfield, hg, ← habout.2]
        refine ⟨evt.oldValue, ?_⟩
        rw [FieldReplays, hsplit, hrest, hone, if_pos hg, ← hg, hfield,
          hval g val List.mem_cons_self]
        exact ⟨rfl, hnew.symm⟩
      · obtain ⟨v, hv⟩ := ih hval' hd hr
        refine ⟨v, ?_⟩
        rw [FieldReplays, hsplit, hone, if_neg hg]
        exact hv

end Trezarr
