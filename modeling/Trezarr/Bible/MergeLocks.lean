import Trezarr.Bible.NameLocks

/-! What a merge does to locked fields when some of its calls fail. -/
namespace Trezarr
open Text Rows BibleRow Fallible Runs

/-- Every field that is locked in `s` has its value in `s'`. -/
def LockedValuesKept (s s' : Store) : Prop :=
  ∀ ref v, s.view ref = some v → ∃ v', s'.view ref = some v' ∧
    ∀ f ∈ v.lockedFields, v'.value f = v.value f

/-- The row's locks and the values under them stay; others may be locked. -/
def LocksHeld (ref : RowRef) (s s' : Store) : Prop :=
  ∀ v, s.view ref = some v → ∃ v', s'.view ref = some v' ∧
    ∀ f ∈ v.lockedFields, f ∈ v'.lockedFields ∧ v'.value f = v.value f

/-- A name whose call goes through and which one locked term has is given that term's rendering. -/
def LockedNamesAgree (down : MergeCall → Bool) (seriesId : ℕ) (analysis : BibleAnalysis)
    (s : Store) : Prop :=
  ∀ x ∈ (planCharacterNameTerms analysis.characters []).zipIdx, down (.nameTerm x.2) = false →
    ∀ row, findTermExact s seriesId x.1.sourceTerm = [row] → row.rendersLocked = true →
      row.vietnameseRendering = x.1.vietnameseRendering

variable {down : MergeCall → Bool} {seriesId : ℕ} {analysis : BibleAnalysis} {episodeKey : Str}
  {s s' mid : Store} {ref : RowRef} {spec : NameTermSpec} {i : ℕ} {row : TermDictionary}

theorem LocksHeld.refl : LocksHeld ref s s := fun v hv => ⟨v, hv, fun _ hf => ⟨hf, rfl⟩⟩

theorem LocksHeld.trans (h : LocksHeld ref s mid) (h' : LocksHeld ref mid s') :
    LocksHeld ref s s' := by
  intro v hv
  obtain ⟨v₁, hv₁, hf₁⟩ := h v hv
  obtain ⟨v₂, hv₂, hf₂⟩ := h' v₁ hv₁
  refine ⟨v₂, hv₂, fun f hf => ?_⟩
  obtain ⟨hl, hval⟩ := hf₁ f hf
  obtain ⟨hl', hval'⟩ := hf₂ f hl
  exact ⟨hl', hval'.trans hval⟩

theorem KeepsLocks.held (h : KeepsLocks ref s s') : LocksHeld ref s s' := by
  intro v hv
  obtain ⟨v', hv', hl, hf⟩ := h v hv
  exact ⟨v', hv', fun f hm => ⟨hl ▸ hm, (hf f hm).1⟩⟩

theorem lockName_touches (down : MergeCall → Bool) (seriesId : ℕ) (s : Store) (spec : NameTermSpec)
    (i : ℕ) : lockName down seriesId s spec i = s ∨
    ∃ ref', TouchesOnly ref' s (lockName down seriesId s spec i) ∧ (s.view ref' = none ∨
      ∃ row ∈ findTermExact s seriesId spec.sourceTerm, ref' = rowRef row) := by
  unfold lockName
  cases ha : attempt down (.nameTerm i) (applyHumanEditTerm s seriesId (some spec.sourceTerm) none
    .vietnameseRendering (some spec.vietnameseRendering) true) with
  | none => exact Or.inl rfl
  | some t => exact Or.inr (applyHumanEditTerm_touches (attempt_ok ha).2)

theorem get?_put_lockRow {rendering : Str} (h : s.termDictionary.get? row.id = some row) :
    (s.termDictionary.put (lockRow row rendering)).get? row.id = some (lockRow row rendering) := by
  have hid : row.id = Keyed.id (lockRow row rendering) := (lockRow_id row rendering).symm
  rw [Table.get?_put, if_pos hid, h]
  rfl

/-- The locking of a name changes no locked value but that of the one row of the name. -/
theorem lockName_held (h : ∀ row, down (.nameTerm i) = false → seriesStored s seriesId = true →
      findTermExact s seriesId spec.sourceTerm = [row] → row.rendersLocked = true →
        row.vietnameseRendering = spec.vietnameseRendering) :
    LocksHeld ref s (lockName down seriesId s spec i) := by
  obtain hs | ⟨ref', ht, ho⟩ := lockName_touches down seriesId s spec i
  · rw [hs]
    exact .refl
  by_cases hr : ref = ref'
  · subst hr
    rcases ho with hn | ⟨row, hrow, rfl⟩
    · intro v hv
      rw [hn] at hv
      cases hv
    · obtain hs | ⟨hnil, -⟩ | ⟨hup, hstored, row', hfound, hs⟩ := lockName_cases down seriesId s spec i
      · rw [hs]
        exact .refl
      · rw [hnil] at hrow
        cases hrow
      · have he : row = row' := by simpa [hfound] using hrow
        subst he
        have hget : s.termDictionary.get? row.id = some row :=
          Table.mem_iff_get?.mp (mem_findTermExact.mp hrow).1
        have hview : s.view (rowRef row) = some (viewRow row) := by
          change (s.termDictionary.get? row.id).map viewRow = _
          rw [hget]
          rfl
        intro v hv
        obtain rfl : viewRow row = v := Option.some_inj.mp (hview.symm.trans hv)
        refine ⟨viewRow (lockRow row spec.vietnameseRendering), ?_, fun f hf => ⟨?_, ?_⟩⟩
        · change ((lockName down seriesId s spec i).termDictionary.get? row.id).map viewRow = _
          rw [hs, get?_put_lockRow hget]
          rfl
        · exact (lockRow_locked row _ f).mpr (Or.inr hf)
        · refine (lockRow_value row _ f).trans ?_
          split
          · next he =>
            subst he
            have hlocked : row.rendersLocked = true := decide_eq_true hf
            rw [← h row hup hstored hfound hlocked]
            rfl
          · rfl
  · exact (ht.keepsLocks hr).held

theorem lockNames_held (h : ¬ TermsRead down seriesId s → seriesStored s seriesId = true →
      LockedNamesAgree down seriesId analysis s) :
    LocksHeld ref s (lockNames down seriesId analysis s) := by
  refine lockNames_related (fun _ => .refl) (fun _ _ _ => .trans) fun st hids x hx hsame =>
    lockName_held fun row hup hstored hfound hlocked => ?_
  rw [hsame] at hfound
  by_cases hread : TermsRead down seriesId s
  · rw [planned_unstored hread (fst_mem_of_mem_zipIdx hx)] at hfound
    cases hfound
  · rw [plannedNames, termsRead, if_neg hread] at hx
    rw [seriesStored_of_seriesIds hids] at hstored
    exact h hread hstored x hx hup row hfound hlocked

theorem held_respected : Respected fun s s' => ∀ ref, LocksHeld ref s s' where
  refl _ _ := .refl
  trans _ _ _ h h' ref := (h ref).trans (h' ref)
  register h ref := (keepsLocks_respected.register h ref).held
  character h ref := (keepsLocks_respected.character h ref).held
  term h ref := (keepsLocks_respected.term h ref).held
  pair h ref := (keepsLocks_respected.pair h ref).held
  event s events ref := (keepsLocks_respected.event s events ref).held

/-- A merge keeps what is locked unless it locks names without knowing the terms, and one of the
names is a locked term that it would render otherwise. -/
theorem locked_values_kept_iff (down : MergeCall → Bool) (seriesId : ℕ) (analysis : BibleAnalysis)
    (episodeKey : Str) (settings : TrezarrSettings) (s : Store) :
    LockedValuesKept s (mergeBibleAnalysis down seriesId analysis episodeKey settings s).1 ↔
      (LocksNames down seriesId analysis episodeKey s → ¬ TermsRead down seriesId s →
        seriesStored s seriesId = true →
          LockedNamesAgree down seriesId analysis
            (termsMerged down seriesId analysis episodeKey s).store) := by
  have hids : seriesIds (termsMerged down seriesId analysis episodeKey s).store = seriesIds s :=
    seriesIds_respected.termsMerged
  constructor
  · intro hkept hl hunread hstored x hx hup row hfound hlocked
    have hunread' := (termsRead_of_seriesIds down seriesId hids).not.mpr hunread
    rw [← seriesStored_of_seriesIds hids] at hstored
    have hplanned : x ∈ (plannedNames down seriesId analysis
        (termsMerged down seriesId analysis episodeKey s).store).zipIdx := by
      rw [plannedNames, termsRead, if_neg hunread']
      exact hx
    have hrow : row ∈ findTermExact (termsMerged down seriesId analysis episodeKey s).store seriesId
        x.1.sourceTerm := by simp [hfound]
    -- the row was locked with the same rendering before the merge
    have hpinned : row.pinned ∈ pinnedTerms s := by
      have hkept : pinnedTerms (termsMerged down seriesId analysis episodeKey s).store =
          pinnedTerms s := pinned_respected.termsMerged
      rw [← hkept]
      exact mem_pinnedTerms.mpr ⟨row, (mem_findTermExact.mp hrow).1, hlocked, rfl⟩
    obtain ⟨old, hold, holdlocked, he⟩ := mem_pinnedTerms.mp hpinned
    have hget : s.termDictionary.get? old.id = some old := Table.mem_iff_get?.mp hold
    obtain ⟨v', hv', hval⟩ := hkept (.termDictionary, old.id) (viewRow old)
      (congrArg (Option.map viewRow) hget)
    -- and the locking of names leaves it with the planned one
    have hafter := lockNames_found hplanned hup hstored hfound
    have hmem : lockRow row x.1.vietnameseRendering ∈ findTermExact
        (lockNames down seriesId analysis (termsMerged down seriesId analysis episodeKey s).store)
          seriesId x.1.sourceTerm := by simp [hafter]
    have hnew : (mergeBibleAnalysis down seriesId analysis episodeKey settings
        s).1.termDictionary.get? old.id = some (lockRow row x.1.vietnameseRendering) := by
      rw [merge_termDictionary settings hl]
      have hid : old.id = Keyed.id (lockRow row x.1.vietnameseRendering) :=
        (congrArg PinnedTerm.id he).trans (lockRow_id row _).symm
      rw [hid]
      exact Table.mem_iff_get?.mp (mem_findTermExact.mp hmem).1
    have hv : some (viewRow (lockRow row x.1.vietnameseRendering)) = some v' :=
      (congrArg (Option.map viewRow) hnew).symm.trans hv'
    have hsame := hval .vietnameseRendering (of_decide_eq_true holdlocked)
    rw [← Option.some_inj.mp hv] at hsame
    have hrendering := (lockRow_value row x.1.vietnameseRendering .vietnameseRendering).symm.trans
      hsame
    rw [if_pos rfl] at hrendering
    have hfinal : x.1.vietnameseRendering = old.vietnameseRendering := Option.some_inj.mp hrendering
    rw [hfinal]
    exact (congrArg PinnedTerm.vietnameseRendering he).symm
  · intro hagree
    have hheld : ∀ ref, LocksHeld ref s
        (mergeBibleAnalysis down seriesId analysis episodeKey settings s).1 := by
      refine held_respected.merge settings fun hl ref => lockNames_held fun hunread hstored => ?_
      rw [termsRead_of_seriesIds down seriesId hids] at hunread
      rw [seriesStored_of_seriesIds hids] at hstored
      exact hagree hl hunread hstored
    intro ref v hv
    obtain ⟨v', hv', hf⟩ := hheld ref v hv
    exact ⟨v', hv', fun f hm => (hf f hm).2⟩

def hanStore : Store where
  series := ⟨[{ id := 1 }], nodup_firstSeries⟩
  termDictionary :=
    ⟨[{ id := 1, seriesId := 1, sourceTerm := "Han Li", vietnameseRendering := "Hàn Lập"
        lockedFields := [.vietnameseRendering] }], by decide⟩

def hanAnalysis : BibleAnalysis where
  characters := [{ originalLatinName := "Han Li", vietnameseRendering := some "Hàn Lực" }]

/-- The terms cannot be read, so the curator's rendering is overwritten. -/
theorem unread_terms_overwrite_lock : ¬ LockedValuesKept hanStore
    (mergeBibleAnalysis (· = .existingTerms) 1 hanAnalysis "S01E02" {} hanStore).1 := by
  intro h
  obtain ⟨v', hv', hf⟩ := h (.termDictionary, 1) _ rfl
  have hrendered : ((mergeBibleAnalysis (· = .existingTerms) 1 hanAnalysis "S01E02" {}
      hanStore).1.view (.termDictionary, 1)).bind (·.value .vietnameseRendering) =
        some "Hàn Lực".toList := by decide
  have hkept : v'.value .vietnameseRendering = some "Hàn Lập".toList :=
    hf .vietnameseRendering (List.mem_singleton_self _)
  rw [hv', Option.bind_some, hkept] at hrendered
  revert hrendered
  decide

end Trezarr
