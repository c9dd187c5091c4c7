import Trezarr.Bible.MergeSteps
import Trezarr.Lib.Lines

/-! What the locking of names does to the terms of a series, and which names it is given. -/
namespace Trezarr
open Text Rows BibleRow Fallible Runs

section Plan

variable {renderings : Dict Str Str} {existing linked : List Str} {plan : NamePlan}
  {taken : List CharacterInference} {c : CharacterInference}

def latinKey (c : CharacterInference) : Str := lower (strip c.originalLatinName)

/-- The name a character's term goes by: the script name, where there is one. -/
def nameSource (c : CharacterInference) : Str :=
  if stripped c.originalScriptName ≠ [] then stripped c.originalScriptName
  else strip c.originalLatinName

def sourceKey (c : CharacterInference) : Str := lower (nameSource c)

/-- Neither the character nor its term is known: it is not among the linked names and has no row. -/
def Unnamed (existing linked : List Str) (c : CharacterInference) : Prop :=
  strip c.originalLatinName ≠ [] ∧ latinKey c ∉ linked ∧ sourceKey c ∉ existing

/-- What a plan is made of: unnamed characters, no two of them under one name. -/
structure NamePlan.Takes (renderings : Dict Str Str) (existing linked : List Str) (plan : NamePlan)
    (taken : List CharacterInference) : Prop where
  specs : plan.specs = taken.map fun c => ⟨nameSource c, canonicalRendering renderings c⟩
  unnamed : ∀ c ∈ taken, Unnamed existing linked c
  latins : (taken.map latinKey).Nodup
  sources : (taken.map sourceKey).Nodup
  locked : ∀ key, key ∈ plan.locked ↔ key ∈ linked ∨ key ∈ taken.map latinKey
  seen : ∀ key, key ∈ plan.seen ↔ key ∈ taken.map sourceKey

theorem nameSource_trimmed (h : strip c.originalLatinName ≠ []) :
    nameSource c ≠ [] ∧ strip (nameSource c) = nameSource c := by
  by_cases hscript : stripped c.originalScriptName ≠ []
  · rw [nameSource, if_pos hscript]
    exact ⟨hscript, strip_strip _⟩
  · rw [nameSource, if_neg hscript]
    exact ⟨h, strip_strip _⟩

theorem nodup_map_append {α β : Type} {f : α → β} {xs : List α} {x : α} (h : (xs.map f).Nodup)
    (hx : f x ∉ xs.map f) : ((xs ++ [x]).map f).Nodup := by
  rw [List.map_append, List.nodup_append]
  refine ⟨h, by simp, ?_⟩
  rintro _ ha _ hb rfl
  rw [List.map_singleton, List.mem_singleton] at hb
  exact hx (hb ▸ ha)

theorem planName_takes (h : plan.Takes renderings existing linked taken) :
    (planName renderings existing plan c).Takes renderings existing linked taken ∨
      (planName renderings existing plan c).Takes renderings existing linked (taken ++ [c]) := by
  unfold planName
  extract_lets latin script source
  by_cases hopen : latin = [] ∨ lower latin ∈ plan.locked
  · rw [if_pos hopen]
    exact Or.inl h
  by_cases hold : lower source ∈ existing ∨ lower source ∈ plan.seen
  · rw [if_neg hopen, if_pos hold]
    exact Or.inl h
  rw [if_neg hopen, if_neg hold]
  rw [not_or] at hopen hold
  have hlatin : latinKey c ∉ linked ∧ latinKey c ∉ taken.map latinKey := by
    rw [← not_or, ← h.locked]
    exact hopen.2
  have hsource : sourceKey c ∉ taken.map sourceKey := by
    rw [← h.seen]
    exact hold.2
  refine Or.inr ⟨?_, ?_, nodup_map_append h.latins hlatin.2, nodup_map_append h.sources hsource,
    fun key => ?_, fun key => ?_⟩
  · rw [List.map_append, h.specs]
    rfl
  · intro c' hc'
    rcases List.mem_append.mp hc' with hc' | hc'
    · exact h.unnamed c' hc'
    · rw [List.mem_singleton.mp hc']
      exact ⟨hopen.1, hlatin.1, hold.1⟩
  · rw [List.mem_cons, h.locked, List.map_append, List.mem_append, List.map_singleton,
      List.mem_singleton]
    exact or_comm.trans or_assoc
  · rw [List.mem_cons, h.seen, List.map_append, List.mem_append, List.map_singleton,
      List.mem_singleton]
    exact or_comm

/-- The latin names that count as locked for the characters of an episode. -/
def linkedNames (characters : List CharacterInference) (terms : List TermDictionary) : List Str :=
  characters.foldl (linkLocked (lockedCjkRenderings terms)) (lockedSources terms)

/-- Whatever characters an episode reports, those it plans names for are unnamed and differ. -/
theorem planned_takes (characters : List CharacterInference) (terms : List TermDictionary) :
    ∃ taken : List CharacterInference, (∀ c ∈ taken, c ∈ characters) ∧
      planCharacterNameTerms characters terms =
        taken.map (fun c => ⟨nameSource c, canonicalRendering (renderingByLatin terms) c⟩) ∧
      (∀ c ∈ taken, Unnamed (existingSources terms) (linkedNames characters terms) c) ∧
      (taken.map latinKey).Nodup ∧ (taken.map sourceKey).Nodup := by
  have hfold : ∀ (cs : List CharacterInference) (plan : NamePlan) (taken : List CharacterInference),
      (∀ c ∈ cs, c ∈ characters) → (∀ c ∈ taken, c ∈ characters) →
      plan.Takes (renderingByLatin terms) (existingSources terms) (linkedNames characters terms)
        taken →
      ∃ taken' : List CharacterInference, (∀ c ∈ taken', c ∈ characters) ∧
        (cs.foldl (planName (renderingByLatin terms) (existingSources terms)) plan).Takes
          (renderingByLatin terms) (existingSources terms) (linkedNames characters terms) taken' := by
    intro cs
    induction cs with
    | nil => exact fun plan taken _ ht h => ⟨taken, ht, h⟩
    | cons c cs ih =>
      intro plan taken hcs ht h
      have hrest : ∀ c' ∈ cs, c' ∈ characters := fun c' hc' => hcs c' (List.mem_cons_of_mem _ hc')
      rcases planName_takes (c := c) h with h | h
      · exact ih _ taken hrest ht h
      · refine ih _ (taken ++ [c]) hrest (fun c' hc' => ?_) h
        rcases List.mem_append.mp hc' with hc' | hc'
        · exact ht c' hc'
        · rw [List.mem_singleton.mp hc']
          exact hcs c List.mem_cons_self
  obtain ⟨taken, ht, h⟩ := hfold characters { locked := linkedNames characters terms } []
    (fun _ hc => hc) (by simp)
    ⟨rfl, by simp, List.nodup_nil, List.nodup_nil, by simp, by simp⟩
  exact ⟨taken, ht, h.specs, h.unnamed, h.latins, h.sources⟩

def NameTermSpec.key (spec : NameTermSpec) : Str := lower spec.sourceTerm

theorem planned_proper (characters : List CharacterInference) (terms : List TermDictionary) :
    (∀ spec ∈ planCharacterNameTerms characters terms,
      spec.sourceTerm ≠ [] ∧ strip spec.sourceTerm = spec.sourceTerm ∧
        spec.key ∉ existingSources terms) ∧
      ((planCharacterNameTerms characters terms).map NameTermSpec.key).Nodup := by
  obtain ⟨taken, -, hspecs, hunnamed, -, hsources⟩ := planned_takes characters terms
  rw [hspecs]
  refine ⟨fun spec hspec => ?_, ?_⟩
  · obtain ⟨c, hc, rfl⟩ := List.mem_map.mp hspec
    obtain ⟨hlatin, -, hnew⟩ := hunnamed c hc
    obtain ⟨hne, htrim⟩ := nameSource_trimmed hlatin
    exact ⟨hne, htrim, hnew⟩
  · rw [List.map_map]
    exact hsources

end Plan

variable {down : MergeCall → Bool} {seriesId : ℕ} {s s' : Store} {spec : NameTermSpec} {i : ℕ}
  {row : TermDictionary}

theorem mem_findTermExact {sourceTerm : Str} : row ∈ findTermExact s seriesId sourceTerm ↔
    row ∈ s.termDictionary.rows ∧ row.seriesId = seriesId ∧ row.sourceTerm = sourceTerm := by
  simp [findTermExact, Table.select]

/-- The row as the locking of a name leaves it. -/
def lockRow (row : TermDictionary) (rendering : Str) : TermDictionary :=
  relock { row with vietnameseRendering := rendering } .vietnameseRendering true

/-- The row of a name that had none. -/
def lockedTerm (s : Store) (seriesId : ℕ) (spec : NameTermSpec) : TermDictionary where
  id := s.termDictionary.nextId
  seriesId := seriesId
  sourceTerm := spec.sourceTerm
  vietnameseRendering := spec.vietnameseRendering
  lockedFields := [.vietnameseRendering]

theorem lockRow_id (row : TermDictionary) (rendering : Str) :
    (lockRow row rendering).id = row.id :=
  relock_id { row with vietnameseRendering := rendering } .vietnameseRendering true

theorem lockRow_ident (row : TermDictionary) (rendering : Str) :
    (lockRow row rendering).seriesId = row.seriesId ∧
      (lockRow row rendering).sourceTerm = row.sourceTerm :=
  Prod.ext_iff.mp
    (relock_ident { row with vietnameseRendering := rendering } .vietnameseRendering true)

theorem createTerm_rows {sourceTerm rendering : Str}
    (h : createTerm s seriesId sourceTerm .vietnameseRendering (some rendering) true = .ok s') :
    s'.termDictionary.rows =
      s.termDictionary.rows ++ [lockedTerm s seriesId ⟨sourceTerm, rendering⟩] := by
  obtain ⟨⟨row, mid⟩, ha, h⟩ := bind_ok h
  obtain ⟨⟨evt, s₂⟩, he, h⟩ := bind_ok h
  cases h
  obtain ⟨rfl, rfl⟩ := addRow_ok ha
  obtain ⟨-, -, -, rfl⟩ := addEvent_ok he
  exact Table.rows_put_insert rfl

theorem editRow_rendering {rendering : Str}
    (h : editRow s row .vietnameseRendering (some rendering) true = .ok s') :
    s'.termDictionary = s.termDictionary.put (lockRow row rendering) := by
  obtain ⟨row₁, hset, h⟩ := bind_ok h
  obtain ⟨⟨evt, s₂⟩, he, h⟩ := bind_ok h
  cases h
  cases hset
  obtain ⟨-, -, -, rfl⟩ := addEvent_ok he
  rfl

theorem lockRow_locked (row : TermDictionary) (rendering : Str) (f : Field) :
    f ∈ (lockRow row rendering).lockedFields ↔ f = .vietnameseRendering ∨ f ∈ row.lockedFields := by
  unfold lockRow relock
  by_cases h : Field.vietnameseRendering ∈ row.lockedFields
  · rw [if_neg (by simpa [lockedFields] using h), if_neg (by simp)]
    exact ⟨Or.inr, fun hf => hf.elim (fun he => he ▸ h) id⟩
  · rw [if_pos (by simpa [lockedFields] using h)]
    change f ∈ row.lockedFields ++ [.vietnameseRendering] ↔ _
    rw [List.mem_append, List.mem_singleton, or_comm]

theorem lockRow_value (row : TermDictionary) (rendering : Str) (f : Field) :
    value (lockRow row rendering) f =
      if f = .vietnameseRendering then some rendering else value row f := by
  have hset : value ({ row with vietnameseRendering := rendering } : TermDictionary) f =
      if f = .vietnameseRendering then some rendering else value row f :=
    value_setValue (r := row) (v := some rendering) (by decide) rfl f
  unfold lockRow relock
  split
  · rw [value_withLocked, hset]
  · split
    · rw [value_withLocked, hset]
    · exact hset

/-- Nothing, a new row, or the one row of exactly that name. -/
theorem lockName_cases (down : MergeCall → Bool) (seriesId : ℕ) (s : Store) (spec : NameTermSpec)
    (i : ℕ) :
    lockName down seriesId s spec i = s ∨
      findTermExact s seriesId spec.sourceTerm = [] ∧
        (lockName down seriesId s spec i).termDictionary.rows =
          s.termDictionary.rows ++ [lockedTerm s seriesId spec] ∨
      down (.nameTerm i) = false ∧ seriesStored s seriesId = true ∧
        ∃ row, findTermExact s seriesId spec.sourceTerm = [row] ∧
          (lockName down seriesId s spec i).termDictionary =
            s.termDictionary.put (lockRow row spec.vietnameseRendering) := by
  unfold lockName
  cases ha : attempt down (.nameTerm i) (applyHumanEditTerm s seriesId (some spec.sourceTerm) none
    .vietnameseRendering (some spec.vietnameseRendering) true) with
  | none => exact Or.inl rfl
  | some t =>
    obtain ⟨hup, happly⟩ := attempt_ok ha
    obtain ⟨_, -, h⟩ := bind_ok happly
    obtain ⟨o, ho, h⟩ := bind_ok h
    have hfound := oneOrNone_ok ho
    cases o with
    | none => exact Or.inr (Or.inl ⟨hfound, createTerm_rows h⟩)
    | some row =>
      have hrow : row ∈ findTermExact s seriesId spec.sourceTerm := by simp [hfound]
      have hseries := (mem_findTermExact.mp hrow).2.1
      refine Or.inr (Or.inr ⟨hup, ?_, row, hfound, editRow_rendering h⟩)
      obtain ⟨row₁, hset, h⟩ := bind_ok h
      obtain ⟨⟨evt, s₂⟩, he, -⟩ := bind_ok h
      cases hset
      have hid := (lockRow_ident row spec.vietnameseRendering).1.trans hseries
      exact hid ▸ stored_of_addEvent he

theorem lockName_frame {β : Type*} {F : Store → β} [EventFree F] [TableFree F TermDictionary] :
    F (lockName down seriesId s spec i) = F s :=
  related_attempt (R := fun s s' => F s' = F s) rfl fun _ h => applyHumanEditTerm_frame h

theorem lockNames_frame {β : Type*} {F : Store → β} [EventFree F] [TableFree F TermDictionary]
    {analysis : BibleAnalysis} : F (lockNames down seriesId analysis s) = F s :=
  related_foldl (R := fun s s' => F s' = F s) (fun _ => rfl) (fun _ _ _ h h' => h'.trans h)
    (fun _ _ => lockName_frame) s _

/-- A call that goes through locks the one row of the name. -/
theorem lockName_of_found (hup : down (.nameTerm i) = false) (hs : seriesStored s seriesId = true)
    (h : findTermExact s seriesId spec.sourceTerm = [row]) :
    (lockName down seriesId s spec i).termDictionary =
      s.termDictionary.put (lockRow row spec.vietnameseRendering) := by
  have hrow : row ∈ findTermExact s seriesId spec.sourceTerm := by simp [h]
  have hseries := (mem_findTermExact.mp hrow).2.1
  have hid : BibleRow.seriesId (lockRow row spec.vietnameseRendering) = seriesId :=
    (lockRow_ident row spec.vietnameseRendering).1.trans hseries
  have hstored : seriesStored (storeRow s (lockRow row spec.vietnameseRendering))
      (BibleRow.seriesId (lockRow row spec.vietnameseRendering)) = true := hid ▸ hs
  have hsource : (Source.ofName (humanSource true)).isSome := by decide
  obtain ⟨⟨evt, s₂⟩, he⟩ := addEvent_of_stored none .vietnameseRendering
    (some row.vietnameseRendering) (some spec.vietnameseRendering) hstored hsource
  have hedit : editRow s row .vietnameseRendering (some spec.vietnameseRendering) true = .ok s₂ := by
    simp only [lockRow] at he
    simp only [editRow, BibleRow.value, BibleRow.setValue, he, bind, Except.bind, pure, Except.pure]
  have happly : applyHumanEditTerm s seriesId (some spec.sourceTerm) none .vietnameseRendering
      (some spec.vietnameseRendering) true = .ok s₂ := by
    rw [← hedit]
    simp only [applyHumanEditTerm, h]
    rfl
  rw [lockName, attempt_of_ok hup happly, Option.getD_some]
  exact editRow_rendering hedit

section Lookups

variable {sourceTerm : Str}

theorem findTermExact_lockName_other (h : spec.sourceTerm ≠ sourceTerm) :
    findTermExact (lockName down seriesId s spec i) seriesId sourceTerm =
      findTermExact s seriesId sourceTerm := by
  obtain hs | ⟨-, hs⟩ | ⟨-, -, row, hrow, hs⟩ := lockName_cases down seriesId s spec i
  · rw [hs]
  · have hnew : ¬ ((lockedTerm s seriesId spec).seriesId = seriesId ∧
        (lockedTerm s seriesId spec).sourceTerm = sourceTerm) := fun hn => h hn.2
    rw [findTermExact, Table.select, hs, List.filter_append, List.filter_singleton,
      decide_eq_false hnew]
    exact List.append_nil _
  · have hmem : row ∈ findTermExact s seriesId spec.sourceTerm := by simp [hrow]
    obtain ⟨hm, -, hsource⟩ := mem_findTermExact.mp hmem
    have hget : s.termDictionary.get? (Keyed.id (lockRow row spec.vietnameseRendering)) =
        some row := by
      rw [show Keyed.id (lockRow row spec.vietnameseRendering) = Keyed.id row from lockRow_id _ _]
      exact Table.mem_iff_get?.mp hm
    obtain ⟨hi, hsrc⟩ := lockRow_ident row spec.vietnameseRendering
    have hother : row.sourceTerm ≠ sourceTerm := hsource ▸ h
    have hput := Table.map_select_put (f := id)
      (p := fun r => decide (r.seriesId = seriesId ∧ r.sourceTerm = sourceTerm)) hget
      (by rw [hi, hsrc]) (fun hp => absurd (of_decide_eq_true hp).2 hother)
    rw [List.map_id, List.map_id] at hput
    rw [findTermExact, hs, hput, findTermExact]

theorem findTermExact_lockName (hup : down (.nameTerm i) = false)
    (hs : seriesStored s seriesId = true)
    (h : findTermExact s seriesId spec.sourceTerm = [row]) :
    findTermExact (lockName down seriesId s spec i) seriesId spec.sourceTerm =
      [lockRow row spec.vietnameseRendering] := by
  have hmem : row ∈ findTermExact s seriesId spec.sourceTerm := by simp [h]
  obtain ⟨-, hid, hsource⟩ := mem_findTermExact.mp hmem
  obtain ⟨hi, hsrc⟩ := lockRow_ident row spec.vietnameseRendering
  rw [findTermExact, lockName_of_found hup hs h]
  refine Table.select_put_single h (lockRow_id _ _).symm (decide_eq_true ?_)
  rw [hi, hsrc]
  exact ⟨hid, hsource⟩

theorem findTermExact_lockName_run {xs : List (NameTermSpec × ℕ)}
    (h : ∀ x ∈ xs, x.1.sourceTerm ≠ sourceTerm) :
    findTermExact (xs.foldl (fun s x => lockName down seriesId s x.1 x.2) s) seriesId sourceTerm =
      findTermExact s seriesId sourceTerm := by
  induction xs generalizing s with
  | nil => rfl
  | cons x xs ih =>
    rw [List.foldl_cons, ih fun y hy => h y (List.mem_cons_of_mem _ hy)]
    exact findTermExact_lockName_other (h x List.mem_cons_self)

end Lookups

section Pinned

/-- A term whose rendering is locked. -/
structure PinnedTerm where
  id : ℕ
  seriesId : ℕ
  sourceTerm : Str
  vietnameseRendering : Str
  deriving DecidableEq, Repr

def TermDictionary.pinned (row : TermDictionary) : PinnedTerm :=
  ⟨row.id, row.seriesId, row.sourceTerm, row.vietnameseRendering⟩

def pinnedTerms (s : Store) : List PinnedTerm :=
  (s.termDictionary.select TermDictionary.rendersLocked).map TermDictionary.pinned

theorem mem_pinnedTerms {p : PinnedTerm} : p ∈ pinnedTerms s ↔
    ∃ row ∈ s.termDictionary.rows, row.rendersLocked = true ∧ row.pinned = p := by
  simp [pinnedTerms, Table.select, and_assoc]

instance : EventFree pinnedTerms := ⟨fun _ _ => rfl⟩

instance : TableFree pinnedTerms Series := ⟨fun _ _ => rfl⟩

instance : TableFree pinnedTerms Character := ⟨fun _ _ => rfl⟩

instance : TableFree pinnedTerms AddressMap := ⟨fun _ _ => rfl⟩

theorem Wrote.pinned_eq {row' : TermDictionary} {events : List BibleEvent} {mid : Store}
    (hget : s.termDictionary.get? row.id = some row)
    (h : Wrote (· ∉ lockedFields row) row s row' events mid) :
    pinnedTerms (storeRow mid row') = pinnedTerms s := by
  have hmid : mid.termDictionary = s.termDictionary := h.table_eq
  have hget' : s.termDictionary.get? (Keyed.id row') = some row := h.id_eq ▸ hget
  have hlocked : row'.lockedFields = row.lockedFields := h.locked_eq
  change ((mid.termDictionary.put row').select _).map _ = _
  rw [hmid]
  refine Table.map_select_put hget' (by simp only [TermDictionary.rendersLocked, hlocked])
    fun hrow => ?_
  have hkept := h.value_eq .vietnameseRendering (not_not.mpr (of_decide_eq_true hrow))
  obtain ⟨hseries, hsource⟩ := Prod.ext_iff.mp h.ident_eq
  have hid : row'.id = row.id := h.id_eq
  have hrendering : row'.vietnameseRendering = row.vietnameseRendering := Option.some_inj.mp hkept
  have hseries' : row'.seriesId = row.seriesId := hseries
  have hsource' : row'.sourceTerm = row.sourceTerm := hsource
  simp only [TermDictionary.pinned, hid, hseries', hsource', hrendering]

/-- An inferred term neither pins a rendering nor changes a pinned one. -/
theorem upsertTerm_pinned {series : ℕ} {sourceTerm : Str} {vr category key : Option Str}
    {source : Str} {r : TermDictionary} {events : List BibleEvent}
    (h : upsertTermInSession s series sourceTerm vr category key source = .ok (r, events, s')) :
    pinnedTerms s' = pinnedTerms s := by
  obtain ⟨-, h⟩ | ⟨row, suppressed, mid, hm, hs, h⟩ := upsertTerm_cases h
  · obtain ⟨mid, ha, hw⟩ := createRow_ok h
    obtain ⟨-, rfl⟩ := addRow_ok ha
    rw [hw.frame (F := pinnedTerms)]
    exact congrArg (List.map TermDictionary.pinned) (Table.select_insert_of_not rfl)
  · have hget := get?_of_select hm
    have hw := suppressedEvents_wrote hs
    obtain ⟨-, -, rfl⟩ | ⟨merged, h, -⟩ := h
    · exact hw.frame
    · obtain ⟨last, hw', rfl⟩ := mergeInferredInSession_ok h
      exact (hw.trans hw').pinned_eq hget

theorem pinned_respected : Respected fun s s' => pinnedTerms s' = pinnedTerms s :=
  respected_of_frame (fun _ _ => rfl) upsertTerm_pinned

end Pinned

section Planned

/-- The Bible is read again before names are locked. -/
def TermsRead (down : MergeCall → Bool) (seriesId : ℕ) (s : Store) : Prop :=
  down .existingTerms = false ∧ (s.series.get? seriesId).isSome = true

instance : Decidable (TermsRead down seriesId s) := inferInstanceAs (Decidable (_ ∧ _))

/-- The terms that are read; none where that fails. -/
def termsRead (down : MergeCall → Bool) (seriesId : ℕ) (s : Store) : List TermDictionary :=
  if TermsRead down seriesId s then s.termDictionary.select (·.seriesId = seriesId) else []

def plannedNames (down : MergeCall → Bool) (seriesId : ℕ) (analysis : BibleAnalysis) (s : Store) :
    List NameTermSpec :=
  planCharacterNameTerms analysis.characters (termsRead down seriesId s)

variable {analysis : BibleAnalysis}

theorem lockNames_eq : lockNames down seriesId analysis s =
    (plannedNames down seriesId analysis s).zipIdx.foldl
      (fun s x => lockName down seriesId s x.1 x.2) s := by
  have hread : ((attempt down .existingTerms (loadSeriesBible s seriesId)).map
      SeriesBibleDTO.terms).getD [] = termsRead down seriesId s := by
    by_cases hd : down .existingTerms = true
    · rw [attempt, if_pos hd, termsRead, if_neg fun h => absurd h.1 (by simp [hd])]
      rfl
    · rw [attempt, if_neg hd, loadSeriesBible]
      cases hs : s.series.get? seriesId with
      | none =>
        rw [termsRead, if_neg fun h => absurd h.2 (by simp [hs])]
        rfl
      | some row =>
        rw [termsRead, if_pos ⟨by simpa using hd, by rw [hs]; rfl⟩]
        rfl
  rw [plannedNames, ← hread]
  rfl

theorem plannedNames_distinct (down : MergeCall → Bool) (seriesId : ℕ) (analysis : BibleAnalysis)
    (s : Store) :
    ((plannedNames down seriesId analysis s).zipIdx.map (·.1.sourceTerm)).Nodup := by
  have hkeys := (planned_proper analysis.characters (termsRead down seriesId s)).2
  have hsources : ((plannedNames down seriesId analysis s).map NameTermSpec.sourceTerm).Nodup := by
    refine List.Nodup.of_map lower ?_
    rw [List.map_map]
    exact hkeys
  have hfst := congrArg (List.map NameTermSpec.sourceTerm)
    (List.zipIdx_map_fst 0 (plannedNames down seriesId analysis s))
  rw [List.map_map] at hfst
  exact hfst ▸ hsources

theorem termsRead_of_seriesIds (down : MergeCall → Bool) (seriesId : ℕ)
    (h : seriesIds s' = seriesIds s) :
    TermsRead down seriesId s' ↔ TermsRead down seriesId s := by
  have hid : (s'.series.get? seriesId).isSome = (s.series.get? seriesId).isSome :=
    congrFun (Prod.ext_iff.mp h).2 seriesId
  rw [TermsRead, TermsRead, hid]

theorem fst_mem_of_mem_zipIdx {x : NameTermSpec × ℕ} {specs : List NameTermSpec}
    (h : x ∈ specs.zipIdx) : x.1 ∈ specs := by
  have hm := List.mem_map_of_mem (f := Prod.fst) h
  rwa [List.zipIdx_map_fst] at hm

/-- With the terms read, no name that is locked has a row. -/
theorem planned_unstored {spec : NameTermSpec} (hread : TermsRead down seriesId s)
    (hm : spec ∈ plannedNames down seriesId analysis s) :
    findTermExact s seriesId spec.sourceTerm = [] := by
  rw [plannedNames, termsRead, if_pos hread] at hm
  obtain ⟨hne, htrim, hnew⟩ := (planned_proper _ _).1 spec hm
  rw [List.eq_nil_iff_forall_not_mem]
  intro row hrow
  obtain ⟨hr, hseries, hsource⟩ := mem_findTermExact.mp hrow
  refine hnew (List.mem_map.mpr ⟨row, List.mem_filter.mpr ⟨?_, ?_⟩, ?_⟩)
  · exact List.mem_filter.mpr ⟨hr, decide_eq_true hseries⟩
  · rw [hsource, htrim]
    exact decide_eq_true hne
  · rw [hsource, nameKey, htrim]
    rfl

/-- What the locking of a name respects, when it finds the rows that were there before any other
name was locked, the locking of all names respects. -/
theorem lockNames_related {R : Store → Store → Prop} (hrefl : ∀ s, R s s)
    (htrans : ∀ a b c, R a b → R b c → R a c)
    (hstep : ∀ st, seriesIds st = seriesIds s →
      ∀ x ∈ (plannedNames down seriesId analysis s).zipIdx,
      findTermExact st seriesId x.1.sourceTerm = findTermExact s seriesId x.1.sourceTerm →
        R st (lockName down seriesId st x.1 x.2)) :
    R s (lockNames down seriesId analysis s) := by
  rw [lockNames_eq]
  have hdistinct := plannedNames_distinct down seriesId analysis s
  have hrun : ∀ (xs : List (NameTermSpec × ℕ)) (st : Store), seriesIds st = seriesIds s →
      (xs.map (·.1.sourceTerm)).Nodup →
      (∀ x ∈ xs, x ∈ (plannedNames down seriesId analysis s).zipIdx ∧
        findTermExact st seriesId x.1.sourceTerm = findTermExact s seriesId x.1.sourceTerm) →
      R st (xs.foldl (fun s x => lockName down seriesId s x.1 x.2) st) := by
    intro xs
    induction xs with
    | nil => exact fun st _ _ _ => hrefl st
    | cons x xs ih =>
      intro st hids hd hm
      rw [List.map_cons, List.nodup_cons] at hd
      obtain ⟨hx, hfound⟩ := hm x List.mem_cons_self
      refine htrans _ _ _ (hstep st hids x hx hfound) ?_
      refine ih (lockName down seriesId st x.1 x.2) (lockName_frame.trans hids) hd.2
        fun y hy => ?_
      obtain ⟨hmy, hfy⟩ := hm y (List.mem_cons_of_mem _ hy)
      refine ⟨hmy, ?_⟩
      have hne : x.1.sourceTerm ≠ y.1.sourceTerm := fun he =>
        hd.1 (List.mem_map.mpr ⟨y, hy, he.symm⟩)
      rw [findTermExact_lockName_other hne, hfy]
  exact hrun _ s rfl hdistinct fun x hx => ⟨hx, rfl⟩

/-- The one row of a planned name whose call goes through ends up with the planned rendering. -/
theorem lockNames_found {x : NameTermSpec × ℕ}
    (hx : x ∈ (plannedNames down seriesId analysis s).zipIdx) (hup : down (.nameTerm x.2) = false)
    (hs : seriesStored s seriesId = true)
    (h : findTermExact s seriesId x.1.sourceTerm = [row]) :
    findTermExact (lockNames down seriesId analysis s) seriesId x.1.sourceTerm =
      [lockRow row x.1.vietnameseRendering] := by
  have hdistinct := plannedNames_distinct down seriesId analysis s
  rw [lockNames_eq]
  obtain ⟨pre, post, he⟩ := List.append_of_mem hx
  rw [he, List.map_append, List.map_cons, List.nodup_append, List.nodup_cons] at hdistinct
  obtain ⟨-, ⟨hpost, -⟩, hpre⟩ := hdistinct
  have hbefore : ∀ y ∈ pre, y.1.sourceTerm ≠ x.1.sourceTerm := fun y hy =>
    hpre _ (List.mem_map_of_mem hy) _ List.mem_cons_self
  have hafter : ∀ y ∈ post, y.1.sourceTerm ≠ x.1.sourceTerm := fun y hy hey =>
    hpost (List.mem_map.mpr ⟨y, hy, hey⟩)
  rw [he, List.foldl_append, List.foldl_cons, findTermExact_lockName_run hafter]
  have hids : seriesIds (pre.foldl (fun s x => lockName down seriesId s x.1 x.2) s) = seriesIds s :=
    related_foldl (R := fun s s' => seriesIds s' = seriesIds s) (fun _ => rfl)
      (fun _ _ _ h h' => h'.trans h) (fun _ _ => lockName_frame) s pre
  refine findTermExact_lockName hup ?_ ?_
  · rw [seriesStored_of_seriesIds hids]
    exact hs
  · rw [findTermExact_lockName_run hbefore]
    exact h

end Planned

end Trezarr
