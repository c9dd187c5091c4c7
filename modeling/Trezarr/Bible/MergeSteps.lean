import Trezarr.Bible.Locks
import Trezarr.Bible.MergeAnalysis

/-! The phases of a merge, and what a step of each of them may write. -/
namespace Trezarr
open Text Rows BibleRow Fallible Runs

section Phases

variable (down : MergeCall → Bool) (seriesId : ℕ) (analysis : BibleAnalysis) (episodeKey : Str)
  (s : Store)

/-- The Bible as the merge reads it for names and pairs. -/
def existingBible : Option SeriesBibleDTO :=
  attempt down .existingBible
    (loadSeriesBible (mergeRegister down seriesId analysis episodeKey s) seriesId)

def existingPairs : List (ℕ × ℕ) :=
  ((existingBible down seriesId analysis episodeKey s).map fun bible => bible.addressMap.map fun a =>
    (a.speakerCharacterId, a.addresseeCharacterId)).getD []

def charactersMerged : Merging :=
  mergeCharacters down seriesId analysis episodeKey
    ⟨mergeRegister down seriesId analysis episodeKey s,
      existingNames (existingBible down seriesId analysis episodeKey s), 0, 0⟩

def termsMerged : Merging :=
  mergeTerms down seriesId analysis episodeKey (charactersMerged down seriesId analysis episodeKey s)

def namesLocked : Merging :=
  { termsMerged down seriesId analysis episodeKey s with
    store := lockNames down seriesId analysis
      (termsMerged down seriesId analysis episodeKey s).store }

def pairsMerged : Merging :=
  mergePairs down seriesId analysis episodeKey (existingPairs down seriesId analysis episodeKey s)
    (namesLocked down seriesId analysis episodeKey s)

/-- Neither all characters nor all terms failed, so names are locked and pairs merged. -/
def LocksNames : Prop :=
  ¬ (analysis.characters ≠ [] ∧ (charactersMerged down seriesId analysis episodeKey s).failed =
      analysis.characters.length) ∧
    ¬ (analysis.terms ≠ [] ∧ (termsMerged down seriesId analysis episodeKey s).failed =
      analysis.terms.length)

instance : Decidable (LocksNames down seriesId analysis episodeKey s) :=
  inferInstanceAs (Decidable (_ ∧ _))

variable {down seriesId analysis episodeKey s}

theorem mergeBibleAnalysis_eq (settings : TrezarrSettings) :
    mergeBibleAnalysis down seriesId analysis episodeKey settings s =
      let chars := charactersMerged down seriesId analysis episodeKey s
      let terms := termsMerged down seriesId analysis episodeKey s
      let pairs := pairsMerged down seriesId analysis episodeKey s
      if analysis.characters ≠ [] ∧ chars.failed = analysis.characters.length then
        (chars.store, .error (.characters chars.failed seriesId episodeKey))
      else if analysis.terms ≠ [] ∧ terms.failed = analysis.terms.length then
        (terms.store, .error (.terms terms.failed seriesId episodeKey))
      else if 0 < pairs.attempted ∧ pairs.failed = pairs.attempted then
        (pairs.store, .error (.addressPairs pairs.failed seriesId episodeKey))
      else if settings.enableRelationshipEvents then
        (mergeEvents down seriesId analysis episodeKey pairs.nameToId pairs.store, .ok ())
      else (pairs.store, .ok ()) := rfl

/-- A merge that succeeds ends with its events, where they are enabled. -/
theorem merge_ok {settings : TrezarrSettings} {final : Store} {u : Unit}
    (h : mergeBibleAnalysis down seriesId analysis episodeKey settings s = (final, .ok u))
    (henabled : settings.enableRelationshipEvents = true) :
    final = mergeEvents down seriesId analysis episodeKey
      (pairsMerged down seriesId analysis episodeKey s).nameToId
      (pairsMerged down seriesId analysis episodeKey s).store := by
  rw [mergeBibleAnalysis_eq] at h
  dsimp only at h
  split at h
  · cases h
  · split at h
    · cases h
    · split at h
      · cases h
      · cases h
        rfl

/-- Where a merge can end. -/
theorem merge_cases (settings : TrezarrSettings) {final : Store}
    (h : (mergeBibleAnalysis down seriesId analysis episodeKey settings s).1 = final) :
    ¬ LocksNames down seriesId analysis episodeKey s ∧
        (final = (charactersMerged down seriesId analysis episodeKey s).store ∨
          final = (termsMerged down seriesId analysis episodeKey s).store) ∨
      LocksNames down seriesId analysis episodeKey s ∧
        (final = (pairsMerged down seriesId analysis episodeKey s).store ∨
          final = mergeEvents down seriesId analysis episodeKey
            (pairsMerged down seriesId analysis episodeKey s).nameToId
            (pairsMerged down seriesId analysis episodeKey s).store) := by
  subst h
  rw [mergeBibleAnalysis_eq]
  dsimp only
  by_cases hchars : analysis.characters ≠ [] ∧
      (charactersMerged down seriesId analysis episodeKey s).failed = analysis.characters.length
  · rw [if_pos hchars]
    exact Or.inl ⟨fun h => h.1 hchars, Or.inl rfl⟩
  · rw [if_neg hchars]
    by_cases hterms : analysis.terms ≠ [] ∧
        (termsMerged down seriesId analysis episodeKey s).failed = analysis.terms.length
    · rw [if_pos hterms]
      exact Or.inl ⟨fun h => h.2 hterms, Or.inr rfl⟩
    · rw [if_neg hterms]
      refine Or.inr ⟨⟨hchars, hterms⟩, ?_⟩
      split
      · exact Or.inl rfl
      · split
        · exact Or.inr rfl
        · exact Or.inl rfl

end Phases

variable {down : MergeCall → Bool} {seriesId : ℕ} {analysis : BibleAnalysis} {episodeKey : Str}
  {s s' : Store} {call : MergeCall} {R : Store → Store → Prop}

theorem attempt_ok {α : Type} {x : Except StoreError α} {a : α}
    (h : attempt down call x = some a) : down call = false ∧ x = .ok a := by
  unfold attempt at h
  split at h
  · cases h
  · next hd =>
    refine ⟨by simpa using hd, ?_⟩
    cases x with
    | error err => cases h
    | ok b => rw [← Option.some_inj.mp h]

theorem attempt_of_ok {α : Type} {x : Except StoreError α} {a : α} (hd : down call = false)
    (hx : x = .ok a) : attempt down call x = some a := by
  rw [attempt, hd, hx]
  rfl

/-- A call that fails writes nothing, so what its successes respect it respects. -/
theorem related_attempt {x : Except StoreError Store} (hrefl : R s s)
    (h : ∀ s', x = .ok s' → R s s') : R s ((attempt down call x).getD s) := by
  cases ha : attempt down call x with
  | none => exact hrefl
  | some t => exact h t (attempt_ok ha).2

/-- What every step of a loop respects the loop does. -/
theorem related_foldl {σ ι : Type} {R : σ → σ → Prop} {f : σ → ι → σ} (hrefl : ∀ s, R s s)
    (htrans : ∀ a b c, R a b → R b c → R a c) (h : ∀ s x, R s (f s x)) (s : σ) (xs : List ι) :
    R s (xs.foldl f s) :=
  related_run (G := fun _ _ => True) hrefl htrans (fun s x _ => h s x)
    (along_of_forall fun _ _ => trivial)

section Calls

theorem related_mergeRegister (hrefl : R s s)
    (h : ∀ reg s', mergeInferred s .series seriesId (Dict.ofList [(.register, some reg)])
      (some episodeKey) "inference" = .ok s' → R s s') :
    R s (mergeRegister down seriesId analysis episodeKey s) := by
  unfold mergeRegister
  dsimp only
  split
  · exact hrefl
  · exact related_attempt hrefl fun s' => h _ s'

theorem related_mergeCharacterRow {st : Merging} {c : CharacterInference} {i : ℕ}
    (hrefl : R st.store st.store)
    (h : ∀ row events s', upsertCharacterInSession st.store seriesId c.originalLatinName c.gender
      c.roughAge c.role (some episodeKey) "inference" = .ok (row, events, s') → R st.store s') :
    R st.store (mergeCharacterRow down seriesId episodeKey st c i).store := by
  unfold mergeCharacterRow
  split
  · next row events s' ha => exact h row events s' (attempt_ok ha).2
  · exact hrefl

theorem related_mergeTermRow {st : Merging} {t : TermInference} {i : ℕ}
    (hrefl : R st.store st.store)
    (h : ∀ row events s', upsertTermInSession st.store seriesId t.sourceTerm
      (some t.vietnameseRendering) t.category (some episodeKey) "inference" =
        .ok (row, events, s') → R st.store s') :
    R st.store (mergeTermRow down seriesId episodeKey st t i).store := by
  unfold mergeTermRow
  split
  · next row events s' ha => exact h row events s' (attempt_ok ha).2
  · exact hrefl

theorem related_mergePairRow {pairs : List (ℕ × ℕ)} {st : Merging} {p : AddressMapInference} {i : ℕ}
    (hrefl : R st.store st.store)
    (h : ∀ spk addr self address validFrom row events s',
      upsertAddressPairInSession st.store seriesId spk addr self address validFrom
        (some episodeKey) "inference" = .ok (row, events, s') → R st.store s') :
    R st.store (mergePairRow down seriesId episodeKey pairs st p i).store := by
  unfold mergePairRow
  split
  · dsimp only
    split
    · next row events s' ha => exact h _ _ _ _ _ row events s' (attempt_ok ha).2
    · exact hrefl
  · exact hrefl

theorem recordRelationshipEvent_ok {a b : ℕ} {marker : Str} {description : Option Str}
    (h : recordRelationshipEvent s seriesId a b marker description = .ok s') :
    ∃ events, s' = { s with relationshipEvents := s.relationshipEvents ++ events } := by
  obtain ⟨o, -, h⟩ := bind_ok h
  cases o with
  | some row =>
    cases h
    exact ⟨[], by simp⟩
  | none =>
    dsimp only at h
    split at h
    · cases h
    · cases h
      exact ⟨[_], rfl⟩

theorem related_mergeEventRow {names : Dict Str ℕ} {e : RelationshipEventInference} {i : ℕ}
    (hrefl : R s s)
    (h : ∀ events, R s { s with relationshipEvents := s.relationshipEvents ++ events }) :
    R s (mergeEventRow down seriesId episodeKey names s e i) := by
  unfold mergeEventRow
  split
  · refine related_attempt hrefl fun s' hs => ?_
    obtain ⟨events, rfl⟩ := recordRelationshipEvent_ok hs
    exact h events
  · exact hrefl

end Calls

/-- A relation between stores that the calls before the locking of names respect. -/
structure RespectedEarly (R : Store → Store → Prop) : Prop where
  refl : ∀ s, R s s
  trans : ∀ a b c, R a b → R b c → R a c
  register : ∀ {s s' : Store} {series : ℕ} {inferred : Dict Field (Option Str)} {key : Option Str}
    {source : Str}, mergeInferred s .series series inferred key source = .ok s' → R s s'
  character : ∀ {s s' : Store} {series : ℕ} {name : Str} {gender roughAge role key : Option Str}
    {source : Str} {row : Character} {events : List BibleEvent},
    upsertCharacterInSession s series name gender roughAge role key source =
      .ok (row, events, s') → R s s'
  term : ∀ {s s' : Store} {series : ℕ} {sourceTerm : Str} {vr category key : Option Str}
    {row : TermDictionary} {events : List BibleEvent},
    upsertTermInSession s series sourceTerm vr category key "inference" =
      .ok (row, events, s') → R s s'

/-- And those after it. -/
structure Respected (R : Store → Store → Prop) : Prop extends RespectedEarly R where
  pair : ∀ {s s' : Store} {series spk addr : ℕ} {self address validFrom key : Option Str}
    {source : Str} {row : AddressMap} {events : List BibleEvent},
    upsertAddressPairInSession s series spk addr self address validFrom key source =
      .ok (row, events, s') → R s s'
  event : ∀ s events, R s { s with relationshipEvents := s.relationshipEvents ++ events }

namespace RespectedEarly

variable (hR : RespectedEarly R)
include hR

theorem foldl {ι : Type} {f : Merging → ι → Merging}
    (h : ∀ st x, R st.store (f st x).store) (st : Merging) (xs : List ι) :
    R st.store (xs.foldl f st).store :=
  related_foldl (R := fun a b : Merging => R a.store b.store) (fun _ => hR.refl _)
    (fun _ _ _ => hR.trans _ _ _) h st xs

theorem charactersMerged : R s (charactersMerged down seriesId analysis episodeKey s).store := by
  have hregister : R s (mergeRegister down seriesId analysis episodeKey s) :=
    related_mergeRegister (hR.refl s) fun _ _ => hR.register
  refine hR.trans _ _ _ hregister ?_
  exact hR.foldl (fun _ _ => related_mergeCharacterRow (hR.refl _) fun _ _ _ => hR.character)
    ⟨mergeRegister down seriesId analysis episodeKey s, _, 0, 0⟩ _

theorem termsLoop : R (Trezarr.charactersMerged down seriesId analysis episodeKey s).store
    (termsMerged down seriesId analysis episodeKey s).store :=
  hR.foldl (fun _ _ => related_mergeTermRow (hR.refl _) fun _ _ _ => hR.term)
    { Trezarr.charactersMerged down seriesId analysis episodeKey s with failed := 0 } _

theorem termsMerged : R s (termsMerged down seriesId analysis episodeKey s).store :=
  hR.trans _ _ _ hR.charactersMerged hR.termsLoop

end RespectedEarly

namespace Respected

variable (hR : Respected R)
include hR

theorem pairsMerged : R (namesLocked down seriesId analysis episodeKey s).store
    (pairsMerged down seriesId analysis episodeKey s).store :=
  hR.foldl (fun _ _ => related_mergePairRow (hR.refl _) fun _ _ _ _ _ _ _ _ => hR.pair)
    { namesLocked down seriesId analysis episodeKey s with failed := 0 } _

theorem mergeEvents {names : Dict Str ℕ} :
    R s (mergeEvents down seriesId analysis episodeKey names s) :=
  related_foldl hR.refl hR.trans (fun s _ => related_mergeEventRow (hR.refl s) (hR.event s)) s _

/-- A merge respects what the locking of names respects besides. -/
theorem merge (settings : TrezarrSettings)
    (hlock : LocksNames down seriesId analysis episodeKey s →
      R (Trezarr.termsMerged down seriesId analysis episodeKey s).store
        (namesLocked down seriesId analysis episodeKey s).store) :
    R s (mergeBibleAnalysis down seriesId analysis episodeKey settings s).1 := by
  obtain ⟨-, h⟩ | ⟨hl, h⟩ := merge_cases (s := s) settings rfl
  · rcases h with h | h
    · rw [h]
      exact hR.charactersMerged
    · rw [h]
      exact hR.termsMerged
  · have hpairs := hR.trans _ _ _ (hR.trans _ _ _ hR.termsMerged (hlock hl)) hR.pairsMerged
    rcases h with h | h
    · rw [h]
      exact hpairs
    · rw [h]
      exact hR.trans _ _ _ hpairs hR.mergeEvents

end Respected

/-- One episode's merge, and which of its calls fail. -/
structure EpisodeMerge where
  down : MergeCall → Bool
  analysis : BibleAnalysis
  episodeKey : Str
  settings : TrezarrSettings

def EpisodeMerge.step (seriesId : ℕ) (s : Store) (m : EpisodeMerge) : Store :=
  (mergeBibleAnalysis m.down seriesId m.analysis m.episodeKey m.settings s).1

section Frames

variable {β : Type*} {F : Store → β} [EventFree F]

/-- What a part of the store owes only to the terms, the calls that store none leave alone. -/
theorem early_of_frame [RowFree F Series] [TableFree F Character]
    (hterm : ∀ {s s' : Store} {series : ℕ} {sourceTerm : Str} {vr category key : Option Str}
      {row : TermDictionary} {events : List BibleEvent},
      upsertTermInSession s series sourceTerm vr category key "inference" =
        .ok (row, events, s') → F s' = F s) : RespectedEarly fun s s' => F s' = F s where
  refl _ := rfl
  trans _ _ _ h h' := h'.trans h
  register h := mergeInferred_series_frame h
  character h := upsertCharacter_frame h
  term h := hterm h

variable [TableFree F AddressMap]

theorem respected_of_frame [RowFree F Series] [TableFree F Character]
    (hevent : ∀ s events, F { s with relationshipEvents := events } = F s)
    (hterm : ∀ {s s' : Store} {series : ℕ} {sourceTerm : Str} {vr category key : Option Str}
      {row : TermDictionary} {events : List BibleEvent},
      upsertTermInSession s series sourceTerm vr category key "inference" =
        .ok (row, events, s') → F s' = F s) : Respected fun s s' => F s' = F s where
  toRespectedEarly := early_of_frame hterm
  pair h := upsertAddressPair_frame h
  event s _ := hevent s _

theorem pairsMerged_frame : F (pairsMerged down seriesId analysis episodeKey s).store =
    F (namesLocked down seriesId analysis episodeKey s).store :=
  related_foldl (R := fun a b : Merging => F b.store = F a.store) (fun _ => rfl)
    (fun _ _ _ h h' => h'.trans h)
    (fun _ _ => related_mergePairRow (R := fun a b => F b = F a) rfl
      fun _ _ _ _ _ _ _ _ h => upsertAddressPair_frame h)
    { namesLocked down seriesId analysis episodeKey s with failed := 0 } _

omit [EventFree F] [TableFree F AddressMap] in
theorem mergeEvents_frame {names : Dict Str ℕ}
    (hevent : ∀ s events, F { s with relationshipEvents := events } = F s) :
    F (mergeEvents down seriesId analysis episodeKey names s) = F s :=
  related_foldl (R := fun a b => F b = F a) (fun _ => rfl) (fun _ _ _ h h' => h'.trans h)
    (fun s _ => related_mergeEventRow (R := fun a b => F b = F a) rfl fun _ => hevent s _) s _

/-- Which series are stored, and whether that is enforced. -/
def seriesIds (s : Store) : Bool × (ℕ → Bool) := (s.enforceFk, fun id => (s.series.get? id).isSome)

instance : EventFree seriesIds := ⟨fun _ _ => rfl⟩

instance : TableFree seriesIds Character := ⟨fun _ _ => rfl⟩

instance : TableFree seriesIds TermDictionary := ⟨fun _ _ => rfl⟩

instance : TableFree seriesIds AddressMap := ⟨fun _ _ => rfl⟩

instance : RowFree seriesIds Series where
  storeRow_eq {s row row'} h hi _ := by
    refine Prod.ext rfl (funext fun id => ?_)
    change ((s.series.put row').get? id).isSome = (s.series.get? id).isSome
    rw [Table.get?_put]
    split <;> simp

instance : EventFree Store.termDictionary := ⟨fun _ _ => rfl⟩

instance : TableFree Store.termDictionary Series := ⟨fun _ _ => rfl⟩

instance : TableFree Store.termDictionary Character := ⟨fun _ _ => rfl⟩

instance : TableFree Store.termDictionary AddressMap := ⟨fun _ _ => rfl⟩

theorem seriesIds_respected : Respected fun s s' => seriesIds s' = seriesIds s :=
  respected_of_frame (fun _ _ => rfl) fun h => upsertTerm_frame h

theorem seriesStored_of_seriesIds {s s' : Store} (h : seriesIds s' = seriesIds s) :
    seriesStored s' = seriesStored s := by
  obtain ⟨hfk, hids⟩ := Prod.ext_iff.mp h
  funext id
  have hfk' : s'.enforceFk = s.enforceFk := hfk
  have hid : (s'.series.get? id).isSome = (s.series.get? id).isSome := congrFun hids id
  rw [seriesStored, seriesStored, hfk', hid]

/-- Names are locked after everything that writes to the terms. -/
theorem merge_termDictionary (settings : TrezarrSettings)
    (hl : LocksNames down seriesId analysis episodeKey s) :
    (mergeBibleAnalysis down seriesId analysis episodeKey settings s).1.termDictionary =
      (namesLocked down seriesId analysis episodeKey s).store.termDictionary := by
  obtain ⟨hn, -⟩ | ⟨-, h⟩ := merge_cases (s := s) settings rfl
  · exact (hn hl).elim
  · rcases h with h | h
    · rw [h]
      exact pairsMerged_frame
    · rw [h]
      exact (mergeEvents_frame fun _ _ => rfl).trans pairsMerged_frame

end Frames

/-- The rows' locks, and the values and events they hold, survive every call but a human edit. -/
theorem keepsLocks_respected : Respected fun s s' => ∀ ref, KeepsLocks ref s s' where
  refl _ _ := .refl
  trans _ _ _ h h' ref := (h ref).trans (h' ref)
  register h _ := (mergeInferred_pipelineWrite h).keepsLocks
  character h _ := (upsertCharacter_pipelineWrite h).keepsLocks
  term h _ := (upsertTerm_pipelineWrite h).keepsLocks
  pair h _ := (upsertAddressPair_pipelineWrite h).keepsLocks
  event s events ref := by
    have hview : ({ s with relationshipEvents := s.relationshipEvents ++ events } : Store).view ref
        = s.view ref := by obtain ⟨⟨⟩, id⟩ := ref <;> rfl
    exact fun v hv => ⟨v, hview.trans hv, rfl, fun _ _ => ⟨rfl, rfl⟩⟩

end Trezarr
