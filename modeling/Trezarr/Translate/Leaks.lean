import Trezarr.Lib.Fallible
import Trezarr.Lib.Sorting
import Trezarr.Translate.Validate

/-! What the gate's checks 9 to 12 say of each cue taken alone, and what their loop makes of it. -/
namespace Trezarr
open Text Regex Regex.Pattern Fallible

/-- The checks of the loop, the one that is raised first in front. -/
def leakChecks : List ℕ := [9, 11, 12, 10]

/-- A cue with script that the credit exemption lets through. -/
def isExempt (src trn : SubLine) : Bool :=
  let text := strip trn.text
  trn.raw = none && found cjkLeakRe text && isCreditFansubCue src.text text

/-- The predicate of one check, whatever the others say of the cue. -/
def violates (allowlist : List Str) (check : ℕ) (src trn : SubLine) : Bool :=
  let text := strip trn.text
  trn.raw = none &&
    match check with
    | 9 => found cjkLeakRe text && !isCreditFansubCue src.text text
    | 10 => isPassthrough src.text text allowlist
    | 11 => found honorificCapnameRe text
    | 12 => (findIter glossParenRe text).any isGloss
    | _ => false

/-- The cues that violate a check, in their order. -/
def violating (allowlist : List Str) (translated source : SubDoc) (check : ℕ) : List ℕ :=
  ((source.lines.zip translated.lines).zipIdx.filter fun (p, _) =>
    violates allowlist check p.1 p.2).map Prod.snd

section Cues

variable {allowlist : List Str} {check : ℕ} {src trn : SubLine}

theorem violates_raw (h : trn.raw.isSome) : violates allowlist check src trn = false := by
  obtain ⟨raw, hraw⟩ := Option.isSome_iff_exists.mp h
  simp [violates, hraw]

theorem violates_empty (h : strip trn.text = []) : violates allowlist check src trn = false := by
  have hscript : found cjkLeakRe [] = false := by decide
  have hgloss : (findIter glossParenRe []).any isGloss = false := by decide
  have hname : found honorificCapnameRe [] = false := by decide
  have htokens : findIter asciiWordRe [] = [] := by decide
  have hpass : isPassthrough src.text [] allowlist = false := by simp [isPassthrough, htokens]
  simp only [violates, h]
  split <;> simp [hscript, hgloss, hname, hpass]

/-- The loop asks in its own order, and an exempt cue is not asked at all. -/
theorem leakOf_eq_find : leakOf allowlist src trn =
    if isExempt src trn then none
    else [9, 12, 11, 10].find? fun check => violates allowlist check src trn := by
  by_cases hraw : trn.raw.isSome
  · have hexempt : isExempt src trn = false := by
      obtain ⟨raw, hraw⟩ := Option.isSome_iff_exists.mp hraw
      simp [isExempt, hraw]
    simp [leakOf, hraw, hexempt, violates_raw hraw]
  · by_cases hempty : strip trn.text = []
    · have hscript : found cjkLeakRe [] = false := by decide
      simp [leakOf, isExempt, hempty, hscript, violates_empty hempty]
    · have hnone : trn.raw = none := by simpa using hraw
      simp only [leakOf, hnone, hempty, isExempt, violates]
      by_cases hscript : found cjkLeakRe (strip trn.text) = true
      · by_cases hcredit : isCreditFansubCue src.text (strip trn.text) = true <;>
          simp [hscript, hcredit]
      · by_cases hgloss : (findIter glossParenRe (strip trn.text)).any isGloss = true
        · simp [hscript, hgloss]
        · by_cases hname : found honorificCapnameRe (strip trn.text) = true
          · simp [hscript, hgloss, hname]
          · by_cases hpass : isPassthrough src.text (strip trn.text) allowlist = true <;>
              simp [hscript, hgloss, hname, hpass]

end Cues

/-- A document whose cues have the given texts, all at one time. -/
def spoken (texts : List Str) : SubDoc where
  lines := texts.zipIdx.map fun (text, i) =>
    { index := natStr (i + 1), startTc := "00:00:01,000", endTc := "00:00:02,000", text := text }
  encoding := "utf-8"
  lineEnding := "\n"
  separators := []

section Positions

variable {α : Type} {f g : α → Bool} {xs : List α} {i : ℕ}

theorem mem_positions : i ∈ (xs.zipIdx.filter fun p => f p.1).map Prod.snd ↔
    ∃ x, xs[i]? = some x ∧ f x = true := by
  simp only [List.mem_map, List.mem_filter, Prod.exists, exists_eq_right,
    List.mem_zipIdx_iff_getElem?]

theorem positions_eq_nil : (xs.zipIdx.filter fun p => f p.1).map Prod.snd = [] ↔
    ∀ x ∈ xs, f x = false := by
  rw [List.eq_nil_iff_forall_not_mem]
  constructor
  · intro h x hx
    obtain ⟨i, hi⟩ := List.mem_iff_getElem?.mp hx
    cases hf : f x with
    | false => rfl
    | true => exact absurd (mem_positions.mpr ⟨x, hi, hf⟩) (h i)
  · intro h i hi
    obtain ⟨x, hx, hf⟩ := mem_positions.mp hi
    simp [h x (List.mem_of_getElem? hx)] at hf

theorem positions_congr : (xs.zipIdx.filter fun p => f p.1).map Prod.snd =
    (xs.zipIdx.filter fun p => g p.1).map Prod.snd ↔ ∀ x ∈ xs, f x = g x := by
  constructor
  · intro h x hx
    obtain ⟨i, hi⟩ := List.mem_iff_getElem?.mp hx
    have hiff : f x = true ↔ g x = true := by
      have hmem : i ∈ (xs.zipIdx.filter fun p => f p.1).map Prod.snd ↔
        i ∈ (xs.zipIdx.filter fun p => g p.1).map Prod.snd := by rw [h]
      simpa [mem_positions, hi] using hmem
    exact Bool.eq_iff_iff.mpr hiff
  · intro h
    refine congrArg (List.map Prod.snd) (List.filter_congr fun p hp => h p.1 ?_)
    exact List.mem_of_getElem? (List.mem_zipIdx_iff_getElem?.mp hp)

end Positions

section Documents

variable {translated source : SubDoc} {settings : TrezarrSettings} {allowlist : List Str}
  {properNounAllowlist : Option (List Str)} {failure : GateFailure} {check : ℕ}

theorem leaking_eq_nil : leaking allowlist translated source check = [] ↔
    ∀ p ∈ source.lines.zip translated.lines, leakOf allowlist p.1 p.2 ≠ some check := by
  refine (positions_eq_nil (f := fun p : SubLine × SubLine =>
    decide (leakOf allowlist p.1 p.2 = some check))).trans ?_
  simp only [decide_eq_false_iff_not, ne_eq]

theorem mem_violating {i : ℕ} : i ∈ violating allowlist translated source check ↔
    ∃ src trn, source.lines[i]? = some src ∧ translated.lines[i]? = some trn ∧
      violates allowlist check src trn = true := by
  refine (mem_positions (f := fun p : SubLine × SubLine =>
    violates allowlist check p.1 p.2)).trans ?_
  simp only [List.getElem?_zip_eq_some, Prod.exists, and_assoc]

theorem violating_sorted : (violating allowlist translated source check).Pairwise (· < ·) :=
  Sorting.pairwise_places List.filter_sublist

theorem violating_eq_nil : violating allowlist translated source check = [] ↔
    ∀ p ∈ source.lines.zip translated.lines, violates allowlist check p.1 p.2 = false :=
  positions_eq_nil (f := fun p : SubLine × SubLine => violates allowlist check p.1 p.2)

theorem leaking_eq_violating :
    leaking allowlist translated source check = violating allowlist translated source check ↔
      ∀ p ∈ source.lines.zip translated.lines,
        (leakOf allowlist p.1 p.2 = some check ↔ violates allowlist check p.1 p.2 = true) := by
  refine (positions_congr
    (f := fun p : SubLine × SubLine => decide (leakOf allowlist p.1 p.2 = some check))
    (g := fun p : SubLine × SubLine => violates allowlist check p.1 p.2)).trans
    (forall₂_congr fun p _ => ?_)
  rw [Bool.eq_iff_iff, decide_eq_true_iff]

theorem checkLeaks_ok (h : checkLeaks translated source allowlist = .ok ()) :
    ∀ check ∈ leakChecks, leaking allowlist translated source check = [] := by
  unfold checkLeaks at h
  split at h
  · cases h
  · next hnone =>
    intro check hmem
    simpa using List.find?_eq_none.mp hnone check hmem

theorem checkLeaks_error
    (h : checkLeaks translated source allowlist = .error (.failure failure)) :
    leakChecks.find? (fun check => leaking allowlist translated source check ≠ []) =
        some failure.check ∧
      failure.failingIndices = some (leaking allowlist translated source failure.check) := by
  unfold checkLeaks at h
  split at h
  · next check hfind =>
    cases h
    exact ⟨hfind, rfl⟩
  · cases h

theorem rejectFirst_error {bad : SubLine → Bool} {report : ℕ → SubLine → GateFailure}
    {lines : List SubLine} (h : rejectFirst bad report lines = .error (.failure failure)) :
    ∃ i line, failure = report i line := by
  unfold rejectFirst at h
  split at h
  · next line i _ =>
    cases h
    exact ⟨i, line, rfl⟩
  · cases h

theorem timesOf_ne_failure {line : SubLine} : timesOf line ≠ .error (.failure failure) := by
  intro h
  unfold timesOf at h
  cases hx : (do return (← tcToMs line.startTc, ← tcToMs line.endTc) : Except PyError (ℕ × ℕ)) with
  | error err => rw [hx] at h; cases h
  | ok times => rw [hx] at h; cases h

/-- The first cue with other times is the one that is reported. -/
theorem checkTimingFrom_error {pairs : List (SubLine × SubLine)} : ∀ {i : ℕ},
    checkTimingFrom i pairs = .error (.failure failure) →
      ∃ j source translated, failure = ⟨5, .timing j source translated, some [j]⟩ := by
  induction pairs with
  | nil =>
    intro i h
    cases h
  | cons p pairs ih =>
    intro i h
    rcases bind_error h with h | ⟨_, -, h⟩
    · exact absurd h timesOf_ne_failure
    rcases bind_error h with h | ⟨_, -, h⟩
    · exact absurd h timesOf_ne_failure
    split at h
    · cases h
      exact ⟨i, _, _, rfl⟩
    · exact ih h

theorem checkUntranslated_error
    (h : checkUntranslated translated source settings = .error (.failure failure)) :
    failure.check = 3 := by
  unfold checkUntranslated at h
  dsimp only at h
  split at h
  · cases h
  · split at h
    · cases h
      rfl
    · cases h

/-- The first seven checks report their own numbers, so a leak comes from the last one. -/
theorem checkLeaks_of_error
    (h : validateSubdoc translated source settings properNounAllowlist =
      .error (.failure failure)) (hleak : failure.check ∈ leakChecks) :
    checkLeaks translated source ((properNounAllowlist.getD []).map lower) =
      .error (.failure failure) := by
  have hearly {n : ℕ} (hcheck : failure.check = n) (hn : n ∉ leakChecks) : False :=
    hn (hcheck ▸ hleak)
  have hfirst {bad : SubLine → Bool} {report : ℕ → SubLine → GateFailure} {n : ℕ}
      (hreject : rejectFirst bad report translated.lines = .error (.failure failure))
      (hcheck : ∀ i line, (report i line).check = n) (hn : n ∉ leakChecks) : False := by
    obtain ⟨i, line, rfl⟩ := rejectFirst_error hreject
    exact hearly (hcheck i line) hn
  rcases bind_error h with h | ⟨_, -, h⟩
  · unfold checkCount at h
    split at h
    · cases h
      exact (hearly (n := 1) rfl (by decide)).elim
    · cases h
  rcases bind_error h with h | ⟨_, -, h⟩
  · exact (hfirst h (fun _ _ => rfl) (by decide)).elim
  rcases bind_error h with h | ⟨_, -, h⟩
  · exact (hearly (checkUntranslated_error h) (by decide)).elim
  rcases bind_error h with h | ⟨_, -, h⟩
  · unfold checkIndices at h
    split at h
    · cases h
      exact (hearly (n := 4) rfl (by decide)).elim
    · cases h
  rcases bind_error h with h | ⟨_, -, h⟩
  · obtain ⟨_, _, _, rfl⟩ := checkTimingFrom_error h
    exact (hearly (n := 5) rfl (by decide)).elim
  rcases bind_error h with h | ⟨_, -, h⟩
  · exact (hfirst h (fun _ _ => rfl) (by decide)).elim
  rcases bind_error h with h | ⟨_, -, h⟩
  · exact (hfirst h (fun _ _ => rfl) (by decide)).elim
  · exact h

theorem checkLeaks_of_ok
    (h : validateSubdoc translated source settings properNounAllowlist = .ok ()) :
    checkLeaks translated source ((properNounAllowlist.getD []).map lower) = .ok () := by
  obtain ⟨_, -, h⟩ := bind_ok h
  obtain ⟨_, -, h⟩ := bind_ok h
  obtain ⟨_, -, h⟩ := bind_ok h
  obtain ⟨_, -, h⟩ := bind_ok h
  obtain ⟨_, -, h⟩ := bind_ok h
  obtain ⟨_, -, h⟩ := bind_ok h
  obtain ⟨_, -, h⟩ := bind_ok h
  exact h

end Documents

/-- No cue violates a check by itself: script outside credits, passthrough, honorific or gloss. -/
def Sound (allowlist : List Str) (translated source : SubDoc) : Prop :=
  ∀ p ∈ source.lines.zip translated.lines, ∀ check ∈ leakChecks,
    violates allowlist check p.1 p.2 = false

/-- No cue that its script exempts as a credit violates one of the other checks. -/
def ExemptClean (allowlist : List Str) (translated source : SubDoc) : Prop :=
  ∀ p ∈ source.lines.zip translated.lines, isExempt p.1 p.2 = true →
    ∀ check ∈ [10, 11, 12], violates allowlist check p.1 p.2 = false

section Soundness

variable {translated source : SubDoc} {settings : TrezarrSettings}
  {properNounAllowlist : Option (List Str)} {failure : GateFailure}

/-- Outside the exemption, a cue without a leak violates nothing. -/
theorem violates_of_leakOf {allowlist : List Str} {src trn : SubLine}
    (h : ∀ check ∈ leakChecks, leakOf allowlist src trn ≠ some check)
    (hexempt : isExempt src trn = false) :
    ∀ check ∈ leakChecks, violates allowlist check src trn = false := by
  have hnone : leakOf allowlist src trn = none := by
    cases hleak : leakOf allowlist src trn with
    | none => rfl
    | some check =>
      rw [leakOf_eq_find, hexempt, if_neg Bool.false_ne_true] at hleak
      have hmem : check ∈ [9, 12, 11, 10] := List.mem_of_find?_eq_some hleak
      refine absurd ?_ (h check ?_)
      · rw [leakOf_eq_find, hexempt, if_neg Bool.false_ne_true, hleak]
      · simp only [leakChecks, List.mem_cons, List.not_mem_nil, or_false] at hmem ⊢
        omega
  rw [leakOf_eq_find, hexempt, if_neg Bool.false_ne_true, List.find?_eq_none] at hnone
  intro check hcheck
  have hmem : check ∈ [9, 12, 11, 10] := by
    simp only [leakChecks, List.mem_cons, List.not_mem_nil, or_false] at hcheck ⊢
    omega
  simpa using hnone check hmem

/-- The credit exemption of check 9 takes a cue out of the other three checks as well: what the
gate accepts is sound when no exempt cue violates one of them. -/
theorem accepted_sound_iff
    (h : validateSubdoc translated source settings properNounAllowlist = .ok ()) :
    Sound ((properNounAllowlist.getD []).map lower) translated source ↔
      ExemptClean ((properNounAllowlist.getD []).map lower) translated source := by
  constructor
  · intro hsound p hp _ check hcheck
    refine hsound p hp check ?_
    simp only [leakChecks, List.mem_cons, List.not_mem_nil, or_false] at hcheck ⊢
    omega
  · intro hclean p hp
    have hleak check hcheck := leaking_eq_nil.mp (checkLeaks_ok (checkLeaks_of_ok h) check hcheck)
    cases hexempt : isExempt p.1 p.2 with
    | false => exact violates_of_leakOf (fun check hcheck => hleak check hcheck p hp) hexempt
    | true =>
      intro check hcheck
      rcases List.mem_cons.mp hcheck with rfl | hcheck
      · simp only [isExempt, Bool.and_eq_true] at hexempt
        simp [violates, hexempt.2]
      · refine hclean p hp hexempt check ?_
        simp only [List.mem_cons, List.not_mem_nil, or_false] at hcheck ⊢
        omega

/-- A credit with a handle in Chinese and a name in English. -/
def credit : SubDoc := spoken ["Phụ đề: 虫二, Elder Zhou".toList]

def creditSource : SubDoc := spoken ["字幕: 虫二".toList]

theorem credit_unsound : validateSubdoc credit creditSource {} none = .ok () ∧
    ¬ Sound [] credit creditSource := by
  refine ⟨by decide +kernel, fun hsound => ?_⟩
  exact absurd (hsound _ (List.mem_of_getElem? (i := 0) rfl) 11 (by decide)) (by decide +kernel)

def hello : SubDoc := spoken ["Hello.".toList]

theorem hello_sound : Sound [] (spoken ["Xin chào bạn.".toList]) hello := by
  have haccepted : validateSubdoc (spoken ["Xin chào bạn.".toList]) hello {} none = .ok () := by
    decide +kernel
  refine (accepted_sound_iff haccepted).mpr ?_
  unfold ExemptClean
  decide

end Soundness

/-- The first check in the order of raising that some cue violates by itself. -/
def worst (allowlist : List Str) (translated source : SubDoc) : Option ℕ :=
  leakChecks.find? fun check => violating allowlist translated source check ≠ []

/-- The loop does not count the cue for the check: it is exempt, or counted as a gloss before the
honorifics are looked for. -/
def isHidden (allowlist : List Str) (check : ℕ) (src trn : SubLine) : Bool :=
  isExempt src trn || (check = 11 && violates allowlist 12 src trn)

/-- No cue that violates the worst check is hidden from it. -/
def NoneHidden (allowlist : List Str) (translated source : SubDoc) : Prop :=
  ∀ check, worst allowlist translated source = some check →
    ∀ p ∈ source.lines.zip translated.lines, violates allowlist check p.1 p.2 = true →
      isHidden allowlist check p.1 p.2 = false

section Completeness

variable {translated source : SubDoc} {settings : TrezarrSettings} {allowlist : List Str}
  {properNounAllowlist : Option (List Str)} {failure : GateFailure} {check : ℕ}

theorem leakOf_some {src trn : SubLine} (h : leakOf allowlist src trn = some check) :
    isExempt src trn = false ∧
      [9, 12, 11, 10].find? (fun check => violates allowlist check src trn) = some check := by
  rw [leakOf_eq_find] at h
  cases hexempt : isExempt src trn with
  | true => simp [hexempt] at h
  | false => exact ⟨rfl, by simpa [hexempt] using h⟩

theorem violates_of_leakOf_eq {src trn : SubLine} (h : leakOf allowlist src trn = some check) :
    violates allowlist check src trn = true :=
  List.find?_some (p := fun check => violates allowlist check src trn) (leakOf_some h).2

theorem isHidden_of_leakOf_eq {src trn : SubLine} (h : leakOf allowlist src trn = some check) :
    isHidden allowlist check src trn = false := by
  obtain ⟨hexempt, hfind⟩ := leakOf_some h
  by_cases hcheck : check = 11
  · subst hcheck
    have hgloss : violates allowlist 12 src trn = false := by
      by_contra hgloss
      cases hscript : violates allowlist 9 src trn <;> simp_all
    simp [isHidden, hexempt, hgloss]
  · simp [isHidden, hexempt, hcheck]

/-- A check that is not raised before the worst one leaks nowhere. -/
theorem leaking_eq_nil_of_violating (h : violating allowlist translated source check = []) :
    leaking allowlist translated source check = [] := by
  rw [leaking_eq_nil]
  intro p hp hleak
  have := violating_eq_nil.mp h p hp
  rw [violates_of_leakOf_eq hleak] at this
  cases this

theorem worst_cases (h : worst allowlist translated source = some check) :
    check = 9 ∨ (check = 11 ∧ violating allowlist translated source 9 = []) ∨
      (check = 12 ∧ violating allowlist translated source 9 = [] ∧
        violating allowlist translated source 11 = []) ∨
      (check = 10 ∧ violating allowlist translated source 9 = [] ∧
        violating allowlist translated source 11 = [] ∧
        violating allowlist translated source 12 = []) := by
  unfold worst leakChecks at h
  by_cases h9 : violating allowlist translated source 9 = []
  · by_cases h11 : violating allowlist translated source 11 = []
    · by_cases h12 : violating allowlist translated source 12 = []
      · by_cases h10 : violating allowlist translated source 10 = [] <;> simp_all
      · simp_all
    · simp_all
  · simp_all

/-- Cues that are not hidden from the worst check are all counted for it. -/
theorem leaking_worst (hworst : worst allowlist translated source = some check)
    (hnone : NoneHidden allowlist translated source) :
    leaking allowlist translated source check = violating allowlist translated source check := by
  rw [leaking_eq_violating]
  intro p hp
  refine ⟨violates_of_leakOf_eq, fun hviolates => ?_⟩
  have hhidden := hnone check hworst p hp hviolates
  simp only [isHidden, Bool.or_eq_false_iff] at hhidden
  have hbefore : ∀ k, violating allowlist translated source k = [] →
      violates allowlist k p.1 p.2 = false := fun k hk => violating_eq_nil.mp hk p hp
  rw [leakOf_eq_find, hhidden.1, if_neg Bool.false_ne_true]
  rcases worst_cases hworst with rfl | ⟨rfl, h9⟩ | ⟨rfl, h9, h11⟩ | ⟨rfl, h9, h11, h12⟩
  · simp [hviolates]
  · have hgloss : violates allowlist 12 p.1 p.2 = false := by simpa using hhidden.2
    simp [hviolates, hbefore 9 h9, hgloss]
  · simp [hviolates, hbefore 9 h9]
  · simp [hviolates, hbefore 9 h9, hbefore 11 h11, hbefore 12 h12]

/-- The failure names the worst check and all its cues when none of them is hidden from it. -/
theorem failing_complete_iff
    (h : validateSubdoc translated source settings properNounAllowlist =
      .error (.failure failure)) (hleak : failure.check ∈ leakChecks) :
    (worst ((properNounAllowlist.getD []).map lower) translated source = some failure.check ∧
      failure.failingIndices = some (violating ((properNounAllowlist.getD []).map lower)
        translated source failure.check)) ↔
      NoneHidden ((properNounAllowlist.getD []).map lower) translated source := by
  generalize hallow : (properNounAllowlist.getD []).map lower = allowlist
  have hraised := checkLeaks_of_error h hleak
  rw [hallow] at hraised
  obtain ⟨hfind, hfailing⟩ := checkLeaks_error hraised
  constructor
  · rintro ⟨hworst, hcomplete⟩ check hcheck p hp hviolates
    cases hworst.symm.trans hcheck
    have heq := Option.some.inj (hfailing.symm.trans hcomplete)
    exact isHidden_of_leakOf_eq ((leaking_eq_violating.mp heq p hp).mpr hviolates)
  · intro hnone
    have hsome : leaking allowlist translated source failure.check ≠ [] := by
      simpa using List.find?_some hfind
    have hviolating : violating allowlist translated source failure.check ≠ [] :=
      fun hnil => hsome (leaking_eq_nil_of_violating hnil)
    obtain ⟨check, hworst⟩ : ∃ check, worst allowlist translated source = some check := by
      rw [← Option.isSome_iff_exists, worst, List.find?_isSome]
      exact ⟨failure.check, hleak, by simpa using hviolating⟩
    have hcheck : check = failure.check := by
      obtain ⟨hfirst, before, after, hsplit, hbefore⟩ := List.find?_eq_some_iff_append.mp hworst
      refine Option.some.inj (Eq.trans (Eq.symm ?_) hfind)
      refine List.find?_eq_some_iff_append.mpr ⟨?_, before, after, hsplit, fun k hk => ?_⟩
      · rw [leaking_worst hworst hnone]
        exact hfirst
      · have hk : violating allowlist translated source k = [] := by simpa using hbefore k hk
        simpa using leaking_eq_nil_of_violating hk
    subst hcheck
    exact ⟨hworst, hfailing.trans (congrArg some (leaking_worst hworst hnone))⟩

/-- A name with a gloss on it, and the name alone. -/
def glossedNames : SubDoc :=
  spoken ["(Elder Zhou's brother) đã đến.".toList, "Elder Zhou đã đến.".toList]

def glossedSource : SubDoc := spoken ["周長老的弟弟來了。".toList, "周長老來了。".toList]

theorem glossedNames_incomplete : ∃ failure,
    validateSubdoc glossedNames glossedSource {} none = .error (.failure failure) ∧
      failure.check = 11 ∧ failure.failingIndices = some [1] ∧
      violating [] glossedNames glossedSource 11 = [0, 1] :=
  ⟨⟨11, .leaks [1], some [1]⟩, by decide +kernel, rfl, rfl, by decide +kernel⟩

/-- With the name alone, the failing set is complete. -/
theorem name_complete :
    worst [] (spoken ["Elder Zhou đã đến.".toList]) hello = some 11 ∧
      some [0] = some (violating [] (spoken ["Elder Zhou đã đến.".toList]) hello 11) := by
  have hraised : validateSubdoc (spoken ["Elder Zhou đã đến.".toList]) hello {} none =
      .error (.failure ⟨11, .leaks [0], some [0]⟩) := by
    decide +kernel
  refine (failing_complete_iff hraised (by decide)).mpr ?_
  intro check hworst
  have hcheck : check = 11 := Option.some.inj (hworst.symm.trans (by decide))
  subst hcheck
  decide

end Completeness

end Trezarr
