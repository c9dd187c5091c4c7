import Trezarr.Translate.PairMerges

/-! Relationship events of an analysis: the characters they are about and their place on record. -/
namespace Trezarr
open Text Rows BibleRow Fallible Runs

variable {down : MergeCall → Bool} {seriesId : ℕ} {analysis : BibleAnalysis} {episodeKey : Str}
  {s s' : Store} {st : Merging}

/-- Characters are never taken away. -/
def CharactersStay (s s' : Store) : Prop :=
  ∀ id, (s.characters.get? id).isSome → (s'.characters.get? id).isSome

/-- Every name resolves to a stored character. -/
def NamesStored (st : Merging) : Prop :=
  ∀ key id, st.nameToId.get? key = some id → (st.store.characters.get? id).isSome

theorem charactersStay_of_eq (h : s'.characters = s.characters) : CharactersStay s s' :=
  fun _ hid => h ▸ hid

theorem upsertCharacter_stays {name : Str} {gender roughAge role key : Option Str} {source : Str}
    {row : Character} {events : List BibleEvent}
    (h : upsertCharacterInSession s seriesId name gender roughAge role key source =
      .ok (row, events, s')) :
    CharactersStay s s' ∧ (s'.characters.get? row.id).isSome := by
  obtain ⟨o, ho, h⟩ := bind_ok h
  cases o with
  | none =>
    obtain ⟨mid, ha, hw⟩ := createRow_ok h
    obtain ⟨hrow, hs⟩ := addRow_ok ha
    have htable : s'.characters = mid.characters := hw.table_eq
    have hget : ∀ id, s'.characters.get? id =
        if id = s.characters.nextId then some row else s.characters.get? id := by
      intro id
      rw [htable, hs, hrow]
      exact Table.get?_insert
    refine ⟨fun id hid => ?_, ?_⟩
    · rw [hget]
      split
      · rfl
      · exact hid
    · have hid : row.id = s.characters.nextId := by
        rw [hrow]
        rfl
      rw [hget, if_pos hid]
      rfl
  | some found =>
    have hm : found ∈ findCharacter s seriesId name := by simp [oneOrNone_ok ho]
    have hfound : s.characters.get? found.id = some found := get?_of_select hm
    dsimp only at h
    split at h
    · cases h
      exact ⟨fun _ hid => hid, by rw [hfound]; rfl⟩
    · obtain ⟨mid, hw, rfl⟩ := mergeInferredInSession_ok h
      have htable : mid.characters = s.characters := hw.table_eq
      have hget : ∀ id, (storeRow mid row).characters.get? id =
          if id = row.id then (s.characters.get? id).map fun _ => row
          else s.characters.get? id := by
        intro id
        rw [← htable]
        exact Table.get?_put
      have hid : row.id = found.id := hw.id_eq
      refine ⟨fun id hid => ?_, ?_⟩
      · rw [hget]
        split
        · rw [Option.isSome_map]
          exact hid
        · exact hid
      · rw [hget, if_pos rfl, Option.isSome_map, hid, hfound]
        rfl

instance : EventFree Store.characters := ⟨fun _ _ => rfl⟩

instance : TableFree Store.characters Series := ⟨fun _ _ => rfl⟩

instance : TableFree Store.characters TermDictionary := ⟨fun _ _ => rfl⟩

instance : TableFree Store.characters AddressMap := ⟨fun _ _ => rfl⟩

theorem charactersStay_respected : Respected CharactersStay where
  refl _ _ hid := hid
  trans _ _ _ h h' id hid := h' id (h id hid)
  register h := charactersStay_of_eq (mergeInferred_series_frame h)
  character h := (upsertCharacter_stays h).1
  term h := charactersStay_of_eq (upsertTerm_frame h)
  pair h := charactersStay_of_eq (upsertAddressPair_frame h)
  event _ _ := charactersStay_of_eq rfl

theorem indexCharacter_get? {names : Dict Str ℕ} {c : CharacterInference} {n id : ℕ} {key : Str}
    (h : (indexCharacter names c n).get? key = some id) : id = n ∨ names.get? key = some id := by
  unfold indexCharacter at h
  split at h
  · rw [Dict.get?_set, Dict.get?_set] at h
    split at h
    · exact Or.inl (Option.some_inj.mp h).symm
    · split at h
      · exact Or.inl (Option.some_inj.mp h).symm
      · exact Or.inr h
  · rw [Dict.get?_set] at h
    split at h
    · exact Or.inl (Option.some_inj.mp h).symm
    · exact Or.inr h

theorem mergeCharacterRow_names {c : CharacterInference} {i : ℕ} (h : NamesStored st) :
    NamesStored (mergeCharacterRow down seriesId episodeKey st c i) := by
  unfold mergeCharacterRow
  split
  · next row events s' ha =>
    obtain ⟨hstay, hrow⟩ := upsertCharacter_stays (attempt_ok ha).2
    intro key id hid
    rcases indexCharacter_get? hid with rfl | hid
    · exact hrow
    · exact hstay id (h key id hid)
  · exact h

theorem existingNames_stored {names : Dict Str ℕ}
    (h : names = existingNames (existingBible down seriesId analysis episodeKey s)) :
    NamesStored ⟨mergeRegister down seriesId analysis episodeKey s, names, 0, 0⟩ := by
  intro key id hid
  subst h
  unfold existingNames at hid
  split at hid
  · next bible hb =>
    have hload := (attempt_ok hb).2
    unfold loadSeriesBible at hload
    split at hload
    · cases hload
    · cases hload
      rw [Dict.get?_ofList] at hid
      obtain ⟨p, hp, rfl⟩ := Option.map_eq_some_iff.mp hid
      obtain ⟨hp, -⟩ := List.mem_filter.mp (List.mem_of_getLast? hp)
      obtain ⟨c, hc, rfl⟩ := List.mem_map.mp hp
      have hget := Table.mem_iff_get?.mp (List.mem_of_mem_filter hc)
      exact Option.isSome_iff_exists.mpr ⟨c, hget⟩
  · cases hid

theorem pairsMerged_names : (pairsMerged down seriesId analysis episodeKey s).nameToId =
    (charactersMerged down seriesId analysis episodeKey s).nameToId := by
  have hterms : (termsMerged down seriesId analysis episodeKey s).nameToId =
      (charactersMerged down seriesId analysis episodeKey s).nameToId := by
    refine related_foldl (R := fun a b : Merging => b.nameToId = a.nameToId) (fun _ => rfl)
      (fun _ _ _ h h' => h'.trans h) (fun st x => ?_)
      { charactersMerged down seriesId analysis episodeKey s with failed := 0 } _
    obtain ⟨t, i⟩ := x
    dsimp only
    unfold mergeTermRow
    split <;> rfl
  have hpairs : (pairsMerged down seriesId analysis episodeKey s).nameToId =
      (termsMerged down seriesId analysis episodeKey s).nameToId :=
    related_foldl (R := fun a b : Merging => b.nameToId = a.nameToId) (fun _ => rfl)
      (fun _ _ _ h h' => h'.trans h)
      (fun st x => (pairStep_cases down seriesId analysis episodeKey s st x).1)
      (pairStart down seriesId analysis episodeKey s) _
  exact hpairs.trans hterms

/-- The names that events are resolved by belong to stored characters. -/
theorem pairsMerged_stored : NamesStored (pairsMerged down seriesId analysis episodeKey s) := by
  have hchars : NamesStored (charactersMerged down seriesId analysis episodeKey s) :=
    invariant_run (I := NamesStored) (G := fun _ _ => True)
      (fun _ _ h _ => mergeCharacterRow_names h) (existingNames_stored rfl)
      (along_of_forall fun _ _ => trivial)
  have hlocked : CharactersStay (termsMerged down seriesId analysis episodeKey s).store
      (namesLocked down seriesId analysis episodeKey s).store :=
    charactersStay_of_eq lockNames_frame
  intro key id hid
  rw [pairsMerged_names] at hid
  have hterms := charactersStay_respected.termsLoop id (hchars key id hid)
  exact charactersStay_respected.pairsMerged id (hlocked id hterms)

variable {a b : ℕ} {names : Dict Str ℕ} {x : RelationshipEventInference × ℕ}

/-- An event between stored characters is on record once its call has gone through. -/
theorem mergeEventRow_recorded (hup : down (.relationshipEvent x.2) = false)
    (ha : lookupName names x.1.characterAName = some a)
    (hb : lookupName names x.1.characterBName = some b) (hs : seriesStored s seriesId = true)
    (hca : (s.characters.get? a).isSome = true) (hcb : (s.characters.get? b).isSome = true) :
    findRelationshipEvents (mergeEventRow down seriesId episodeKey names s x.1 x.2) seriesId a b
      episodeKey ≠ [] := by
  unfold mergeEventRow
  rw [ha, hb]
  dsimp only
  cases hr : recordRelationshipEvent s seriesId a b episodeKey (some x.1.description) with
  | ok t =>
    rw [attempt_of_ok hup rfl, Option.getD_some]
    obtain ⟨o, ho, h⟩ := bind_ok hr
    cases o with
    | some row =>
      cases h
      simp [oneOrNone_ok ho]
    | none =>
      dsimp only at h
      split at h
      · cases h
      · cases h
        rw [findRelationshipEvents, List.filter_append]
        simp
  | error err =>
    have hkeep : (attempt down (.relationshipEvent x.2)
        (Except.error err : Except StoreError Store)).getD s = s := by
      rw [attempt, hup]
      rfl
    rw [hkeep]
    intro hnone
    have hrefs : (s.enforceFk && !((s.series.get? seriesId).isSome &&
        (s.characters.get? a).isSome && (s.characters.get? b).isSome)) = false := by
      rw [hca, hcb]
      simpa [seriesStored, imp_iff_not_or] using hs
    rw [recordRelationshipEvent, hnone] at hr
    change (if _ then _ else _) = _ at hr
    rw [hrefs] at hr
    cases hr

/-- An event of a merge that has locked names is on record when the merge is over. -/
theorem event_recorded (hx : x ∈ analysis.relationshipEvents.zipIdx)
    (hup : down (.relationshipEvent x.2) = false)
    (ha : lookupName names x.1.characterAName = some a)
    (hb : lookupName names x.1.characterBName = some b) (hs : seriesStored s seriesId = true)
    (hca : (s.characters.get? a).isSome = true) (hcb : (s.characters.get? b).isSome = true) :
    findRelationshipEvents (mergeEvents down seriesId analysis episodeKey names s) seriesId a b
      episodeKey ≠ [] := by
  obtain ⟨xs, ys, he⟩ := List.append_of_mem hx
  rw [mergeEvents, he, List.foldl_append, List.foldl_cons]
  have hgrow : ∀ (t : Store) (zs : List (RelationshipEventInference × ℕ)),
      findRelationshipEvents t seriesId a b episodeKey ≠ [] →
      findRelationshipEvents (zs.foldl
        (fun s x => mergeEventRow down seriesId episodeKey names s x.1 x.2) t) seriesId a b
          episodeKey ≠ [] := by
    intro t zs
    let R : Store → Store → Prop := fun t t' =>
      findRelationshipEvents t seriesId a b episodeKey ≠ [] →
        findRelationshipEvents t' seriesId a b episodeKey ≠ []
    refine related_foldl (R := R) (fun _ h => h) (fun _ _ _ h h' hne => h' (h hne))
      (fun t x => related_mergeEventRow (R := R) id fun events hne => ?_) t zs
    rw [findRelationshipEvents, List.filter_append]
    exact List.append_ne_nil_of_left_ne_nil hne _
  have hframe : ∀ {β : Type} (F : Store → β),
      (∀ s events, F { s with relationshipEvents := events } = F s) →
      F (xs.foldl (fun s x => mergeEventRow down seriesId episodeKey names s x.1 x.2) s) = F s :=
    fun F hF => related_foldl (R := fun a b => F b = F a) (fun _ => rfl)
      (fun _ _ _ h h' => h'.trans h)
      (fun s _ => related_mergeEventRow (R := fun a b => F b = F a) rfl fun _ => hF s _) s xs
  refine hgrow _ ys (mergeEventRow_recorded hup ha hb ?_ ?_ ?_)
  · rw [hframe (seriesStored · seriesId) fun _ _ => rfl]
    exact hs
  · rw [hframe (fun s => (s.characters.get? a).isSome) fun _ _ => rfl]
    exact hca
  · rw [hframe (fun s => (s.characters.get? b).isSome) fun _ _ => rfl]
    exact hcb

end Trezarr
