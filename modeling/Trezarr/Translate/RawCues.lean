import Trezarr.Translate.Leaks

/-! Whether the gate's verdict depends on the cues that are passed through raw. -/
namespace Trezarr
open Text Regex Fallible

/-- The cue with another text and another block, when it is raw. -/
def SubLine.withRaw (line : SubLine) (new : Str × Str) : SubLine :=
  if line.raw.isSome then { line with text := new.1, raw := some new.2 } else line

def SubDoc.withRaw (doc : SubDoc) (new : ℕ → Str × Str) : SubDoc :=
  { doc with lines := doc.lines.mapIdx fun i line => line.withRaw (new i) }

/-- The documents have the same raw cues in the same places. -/
def RawAgree (translated source : SubDoc) : Prop :=
  ∀ (i : ℕ) (trn src : SubLine), translated.lines[i]? = some trn →
    source.lines[i]? = some src → trn.raw = src.raw ∧ (trn.raw.isSome → trn.text = src.text)

inductive GateVerdict
  | accept
  | reject (check : ℕ) (failingIndices : Option (List ℕ))
  | raised (err : PyError)
  deriving DecidableEq, Repr

/-- What is left of a result without the words of its reason. -/
def verdictOf : Except GateError Unit → GateVerdict
  | .ok () => .accept
  | .error (.failure failure) => .reject failure.check failure.failingIndices
  | .error (.raised err) => .raised err

/-- The first five checks, which are the ones before any that reads raw text. -/
def checkShape (translated source : SubDoc) (settings : TrezarrSettings) :
    Except GateError Unit := do
  checkCount translated source
  checkNotEmpty translated
  checkUntranslated translated source settings
  checkIndices translated source
  checkTimingPreserved translated source

def hasToken (text : Str) : Bool := found sentinelRe text || found unclosedSentinelRe text

/-- The first cue, raw or not, whose text is of the kind. -/
def firstCue (bad : Str → Bool) (doc : SubDoc) : Option ℕ :=
  (doc.lines.zipIdx.find? fun (line, _) => bad line.text).map Prod.snd

/-- The documents fail before the sentinels are looked at, or the change leaves the first cue with
a token in its place and, without one, the first cue with scaffolding. -/
def RawInert (translated source : SubDoc) (settings : TrezarrSettings) (new : ℕ → Str × Str) :
    Prop :=
  checkShape translated source settings ≠ .ok () ∨
    (firstCue hasToken (translated.withRaw new) = firstCue hasToken translated ∧
      (firstCue hasToken translated = none →
        firstCue isScaffolded (translated.withRaw new) = firstCue isScaffolded translated))

/-- Two cues the checks before the sentinels cannot tell apart. -/
structure Alike (a b : SubLine) : Prop where
  index : a.index = b.index
  startTc : a.startTc = b.startTc
  endTc : a.endTc = b.endTc
  raw : a.raw.isSome = b.raw.isSome
  eq_of_none : a.raw = none → a = b

theorem Alike.raw_isSome {a b : SubLine} (h : Alike a b) {raw : Str} (hraw : a.raw = some raw) :
    ∃ raw', b.raw = some raw' := by
  rw [← Option.isSome_iff_exists, ← h.raw, hraw]
  rfl

theorem SubLine.alike_withRaw (line : SubLine) (new : Str × Str) : Alike line (line.withRaw new) := by
  unfold SubLine.withRaw
  cases hraw : line.raw with
  | none => exact ⟨rfl, rfl, rfl, by simp, fun _ => by simp⟩
  | some raw => exact ⟨rfl, rfl, rfl, by simp [hraw], fun h => by rw [hraw] at h; cases h⟩

section Lists

variable {α β : Type} {R : α → β → Prop} {xs : List α} {ys : List β} {f : α → Bool} {g : β → Bool}

theorem find?_congr (h : List.Forall₂ R xs ys) (hfg : ∀ x y, R x y → f x = g y) : ∀ {n : ℕ},
    ((xs.zipIdx n).find? fun p => f p.1).map Prod.snd =
      ((ys.zipIdx n).find? fun p => g p.1).map Prod.snd := by
  induction h with
  | nil => exact rfl
  | cons hxy _ ih =>
    intro n
    simp only [List.zipIdx_cons, List.find?_cons, hfg _ _ hxy]
    split
    · rfl
    · exact ih

theorem filter_congr_positions (h : List.Forall₂ R xs ys) (hfg : ∀ x y, R x y → f x = g y) :
    ∀ {n : ℕ}, ((xs.zipIdx n).filter fun p => f p.1).map Prod.snd =
      ((ys.zipIdx n).filter fun p => g p.1).map Prod.snd := by
  induction h with
  | nil => exact rfl
  | cons hxy _ ih =>
    intro n
    simp only [List.zipIdx_cons, List.filter_cons, hfg _ _ hxy]
    split
    · exact congrArg (List.cons n) ih
    · exact ih

theorem filter_congr_of_eq {xs ys : List α} {R : α → α → Prop} (h : List.Forall₂ R xs ys)
    (hf : ∀ x y, R x y → f x = f y ∧ (f x = true → x = y)) : ∀ {n : ℕ},
    (xs.zipIdx n).filter (fun p => f p.1) = (ys.zipIdx n).filter fun p => f p.1 := by
  induction h with
  | nil => exact rfl
  | @cons x y xs ys hxy _ ih =>
    intro n
    obtain ⟨heq, hsame⟩ := hf x y hxy
    simp only [List.zipIdx_cons, List.filter_cons, ← heq]
    split
    · next htrue => rw [hsame htrue, ih]
    · exact ih

end Lists

theorem SubDoc.forall₂_withRaw (doc : SubDoc) (new : ℕ → Str × Str) :
    List.Forall₂ Alike doc.lines (doc.withRaw new).lines := by
  refine List.forall₂_iff_get.mpr ⟨by simp [SubDoc.withRaw], fun i h h' => ?_⟩
  simp only [SubDoc.withRaw, List.get_eq_getElem, List.getElem_mapIdx]
  exact SubLine.alike_withRaw _ _

/-- A cue of the source beside its translation: the same pair when the translation is not raw. -/
structure PairAlike (p q : SubLine × SubLine) : Prop where
  source : Alike p.1 q.1
  translated : Alike p.2 q.2
  eq_of_none : p.2.raw = none → p = q

theorem RawAgree.pairs {translated source : SubDoc} (h : RawAgree translated source)
    (new : ℕ → Str × Str) :
    List.Forall₂ PairAlike (source.lines.zip translated.lines)
      ((source.withRaw new).lines.zip (translated.withRaw new).lines) := by
  refine List.forall₂_iff_get.mpr ⟨by simp [SubDoc.withRaw], fun i hi hi' => ?_⟩
  simp only [SubDoc.withRaw, List.get_eq_getElem, List.getElem_zip, List.getElem_mapIdx]
  refine ⟨SubLine.alike_withRaw _ _, SubLine.alike_withRaw _ _, fun hnone => ?_⟩
  dsimp only at hnone
  have hlength : i < source.lines.length ∧ i < translated.lines.length := by simpa using hi
  have hsource := (h i _ _ (List.getElem?_eq_getElem hlength.2)
    (List.getElem?_eq_getElem hlength.1)).1
  rw [hnone] at hsource
  exact Prod.ext ((SubLine.alike_withRaw _ _).eq_of_none hsource.symm)
    ((SubLine.alike_withRaw _ _).eq_of_none hnone)

section Checks

variable {translated source : SubDoc} {settings : TrezarrSettings} {new : ℕ → Str × Str}
  {allowlist : List Str} {x y : Except GateError Unit} {f g : Unit → Except GateError Unit}

theorem verdictOf_bind (hxy : verdictOf x = verdictOf y)
    (hfg : verdictOf (f ()) = verdictOf (g ())) : verdictOf (x >>= f) = verdictOf (y >>= g) := by
  cases x with
  | ok _ =>
    cases y with
    | ok _ => exact hfg
    | error err => cases err <;> cases hxy
  | error err =>
    cases y with
    | ok _ => cases err <;> cases hxy
    | error err' => exact hxy

theorem verdictOf_then : verdictOf (x >>= f) =
    if verdictOf x = .accept then verdictOf (f ()) else verdictOf x := by
  cases x with
  | ok _ => rfl
  | error err => cases err <;> rfl

/-- The verdict of a check that reports the first bad cue by its place. -/
theorem verdictOf_rejectFirst {bad : SubLine → Bool} {report : ℕ → SubLine → GateFailure} {n : ℕ}
    (hreport : ∀ i line, (report i line).check = n ∧ (report i line).failingIndices = some [i])
    (lines : List SubLine) : verdictOf (rejectFirst bad report lines) =
      match (lines.zipIdx.find? fun p => bad p.1).map Prod.snd with
      | some i => .reject n (some [i])
      | none => .accept := by
  unfold rejectFirst
  split
  · next line i hfind =>
    rw [show lines.zipIdx.find? (fun p => bad p.1) = some (line, i) from hfind]
    simp [verdictOf, hreport]
  · next hfind =>
    rw [show lines.zipIdx.find? (fun p => bad p.1) = none from hfind]
    rfl

theorem verdictOf_checkNotEmpty : verdictOf (checkNotEmpty (translated.withRaw new)) =
    verdictOf (checkNotEmpty translated) := by
  refine (verdictOf_rejectFirst (n := 2) (fun _ _ => ⟨rfl, rfl⟩) _).trans
    (Eq.trans ?_ (verdictOf_rejectFirst (n := 2) (fun _ _ => ⟨rfl, rfl⟩) _).symm)
  let blank : SubLine → Bool := fun line => line.raw = none && strip line.text = []
  have hfind := find?_congr (f := blank) (g := blank) (n := 0) (translated.forall₂_withRaw new) ?_
  · rw [hfind]
  · intro a b hab
    cases hraw : a.raw with
    | none => rw [hab.eq_of_none hraw]
    | some raw =>
      obtain ⟨raw', hraw'⟩ := hab.raw_isSome hraw
      simp [blank, hraw, hraw']

/-- Only cues that are not raw count for the ratio. -/
theorem checkUntranslated_withRaw :
    checkUntranslated (translated.withRaw new) (source.withRaw new) settings =
      checkUntranslated translated source settings := by
  have hpaired : List.Forall₂ Alike (translated.lines.take source.lines.length)
      ((translated.withRaw new).lines.take (source.withRaw new).lines.length) := by
    have hlength : (source.withRaw new).lines.length = source.lines.length := by
      simp [SubDoc.withRaw]
    rw [hlength]
    exact List.forall₂_take _ (translated.forall₂_withRaw new)
  have htranslatable := filter_congr_of_eq (f := isTranslatable) (n := 0) hpaired ?_
  · unfold checkUntranslated
    dsimp only
    rw [show ((translated.withRaw new).lines.take (source.withRaw new).lines.length).zipIdx.filter
      (fun (line, _) => isTranslatable line) = _ from htranslatable.symm]
  · intro a b hab
    cases hraw : a.raw with
    | none => exact ⟨by rw [hab.eq_of_none hraw], fun _ => hab.eq_of_none hraw⟩
    | some raw =>
      obtain ⟨raw', hraw'⟩ := hab.raw_isSome hraw
      simp [isTranslatable, hraw, hraw']

theorem verdictOf_checkIndices (h : RawAgree translated source) :
    verdictOf (checkIndices (translated.withRaw new) (source.withRaw new)) =
      verdictOf (checkIndices translated source) := by
  have hverdict : ∀ translated source : SubDoc, verdictOf (checkIndices translated source) =
      match ((source.lines.zip translated.lines).zipIdx.find?
        fun p => !sameTimes p.1.1 p.1.2).map Prod.snd with
      | some i => .reject 4 (some [i])
      | none => .accept := by
    intro translated source
    unfold checkIndices
    split
    · next hfind =>
      rw [show (source.lines.zip translated.lines).zipIdx.find?
        (fun p => !sameTimes p.1.1 p.1.2) = _ from hfind]
      rfl
    · next hfind =>
      rw [show (source.lines.zip translated.lines).zipIdx.find?
        (fun p => !sameTimes p.1.1 p.1.2) = _ from hfind]
      rfl
  rw [hverdict, hverdict]
  have hfind := find?_congr (f := fun p => !sameTimes p.1 p.2) (g := fun p => !sameTimes p.1 p.2)
    (n := 0) (h.pairs new) ?_
  · rw [hfind]
  · intro p q hpq
    simp only [sameTimes, hpq.source.index, hpq.source.startTc, hpq.source.endTc,
      hpq.translated.index, hpq.translated.startTc, hpq.translated.endTc]

theorem timesOf_alike {a b : SubLine} (h : Alike a b) : timesOf a = timesOf b := by
  unfold timesOf
  rw [h.startTc, h.endTc]

theorem verdictOf_checkTimingFrom {xs ys xs' ys' : List SubLine} (h : List.Forall₂ Alike xs xs') :
    List.Forall₂ Alike ys ys' → ∀ {i : ℕ},
      verdictOf (checkTimingFrom i (xs.zip ys)) = verdictOf (checkTimingFrom i (xs'.zip ys')) := by
  induction h generalizing ys ys' with
  | nil => exact fun _ _ => rfl
  | @cons a a' xs xs' ha _ ih =>
    intro hys i
    cases hys with
    | nil => rfl
    | @cons b b' ys ys' hb hys =>
      simp only [List.zip_cons_cons, checkTimingFrom, timesOf_alike ha, timesOf_alike hb]
      cases timesOf a' with
      | error err => rfl
      | ok trnTimes =>
        cases timesOf b' with
        | error err => rfl
        | ok srcTimes =>
          simp only [ok_bind]
          split
          · rfl
          · exact ih hys

theorem verdictOf_checkShape (h : RawAgree translated source) :
    verdictOf (checkShape (translated.withRaw new) (source.withRaw new) settings) =
      verdictOf (checkShape translated source settings) := by
  refine verdictOf_bind ?_ (verdictOf_bind verdictOf_checkNotEmpty (verdictOf_bind ?_
    (verdictOf_bind (verdictOf_checkIndices h) ?_)))
  · simp [checkCount, SubDoc.withRaw]
  · rw [checkUntranslated_withRaw]
  · exact (verdictOf_checkTimingFrom (translated.forall₂_withRaw new)
      (source.forall₂_withRaw new)).symm

theorem checkLeaks_withRaw (h : RawAgree translated source) :
    checkLeaks (translated.withRaw new) (source.withRaw new) allowlist =
      checkLeaks translated source allowlist := by
  have hleaking : ∀ check, leaking allowlist (translated.withRaw new) (source.withRaw new) check =
      leaking allowlist translated source check := by
    intro check
    let leaks : SubLine × SubLine → Bool := fun p => leakOf allowlist p.1 p.2 = some check
    refine (filter_congr_positions (f := leaks) (g := leaks) (n := 0) (h.pairs new) ?_).symm
    intro p q hpq
    cases hraw : p.2.raw with
    | none => rw [hpq.eq_of_none hraw]
    | some raw =>
      obtain ⟨raw', hraw'⟩ := hpq.translated.raw_isSome hraw
      simp [leaks, leakOf, hraw, hraw']
  unfold checkLeaks
  simp only [hleaking]

theorem verdictOf_checkLeaks : verdictOf (checkLeaks translated source allowlist) = .accept ∨
    ∃ check ∈ leakChecks, ∃ failing,
      verdictOf (checkLeaks translated source allowlist) = .reject check failing := by
  unfold checkLeaks
  split
  · next check hfind => exact .inr ⟨check, List.mem_of_find?_eq_some hfind, _, rfl⟩
  · exact .inl rfl

/-- The verdict of the checks after the first five, by the first token and the first scaffolding. -/
def lateVerdict (token scaffold : Option ℕ) (leaks : GateVerdict) : GateVerdict :=
  match token with
  | some i => .reject 6 (some [i])
  | none =>
    match scaffold with
    | some i => .reject 8 (some [i])
    | none => leaks

theorem lateVerdict_eq_iff {token token' scaffold scaffold' : Option ℕ} {leaks : GateVerdict}
    (h : ∀ i, leaks ≠ .reject 6 (some [i]) ∧ leaks ≠ .reject 8 (some [i])) :
    lateVerdict token' scaffold' leaks = lateVerdict token scaffold leaks ↔
      token' = token ∧ (token = none → scaffold' = scaffold) := by
  cases token' with
  | some i =>
    cases token with
    | some j => simp [lateVerdict]
    | none => cases scaffold <;> simp [lateVerdict, (h i).1.symm]
  | none =>
    cases token with
    | some j => cases scaffold' <;> simp [lateVerdict, (h j).1]
    | none =>
      cases scaffold' with
      | some i => cases scaffold <;> simp [lateVerdict, (h i).2.symm]
      | none =>
        cases scaffold with
        | some j => simp [lateVerdict, (h j).2]
        | none => simp

theorem verdictOf_validateSubdoc {properNounAllowlist : Option (List Str)} :
    verdictOf (validateSubdoc translated source settings properNounAllowlist) =
      match checkShape translated source settings with
      | .error err => verdictOf (.error err)
      | .ok () => lateVerdict (firstCue hasToken translated) (firstCue isScaffolded translated)
          (verdictOf (checkLeaks translated source ((properNounAllowlist.getD []).map lower))) := by
  have hsplit : validateSubdoc translated source settings properNounAllowlist =
      checkShape translated source settings >>= fun _ => checkSentinels translated >>= fun _ =>
        checkScaffolding translated >>= fun _ =>
          checkLeaks translated source ((properNounAllowlist.getD []).map lower) := by
    simp only [validateSubdoc, checkShape, bind_assoc]
  rw [hsplit]
  cases checkShape translated source settings with
  | error err => rfl
  | ok _ =>
    have htoken : verdictOf (checkSentinels translated) =
        lateVerdict (firstCue hasToken translated) none .accept :=
      verdictOf_rejectFirst (n := 6) (fun _ _ => ⟨rfl, rfl⟩) translated.lines
    have hscaffold : verdictOf (checkScaffolding translated) =
        lateVerdict none (firstCue isScaffolded translated) .accept :=
      verdictOf_rejectFirst (n := 8) (fun _ _ => ⟨rfl, rfl⟩) translated.lines
    rw [ok_bind, verdictOf_then, htoken]
    cases firstCue hasToken translated with
    | some i => rfl
    | none =>
      simp only [lateVerdict]
      rw [verdictOf_then, hscaffold]
      cases firstCue isScaffolded translated <;> rfl

/-- The cues the gate writes back as they are take part in its verdict: checks 6 and 8 read them
like any other. It stays the same when an earlier check rejects, or the first bad cue does. -/
theorem verdict_withRaw_iff (h : RawAgree translated source) (settings : TrezarrSettings)
    (properNounAllowlist : Option (List Str)) (new : ℕ → Str × Str) :
    verdictOf (validateSubdoc (translated.withRaw new) (source.withRaw new) settings
        properNounAllowlist) =
      verdictOf (validateSubdoc translated source settings properNounAllowlist) ↔
      RawInert translated source settings new := by
  have hshape : verdictOf (checkShape (translated.withRaw new) (source.withRaw new) settings) =
      verdictOf (checkShape translated source settings) := verdictOf_checkShape h
  rw [verdictOf_validateSubdoc, verdictOf_validateSubdoc, checkLeaks_withRaw h, RawInert]
  cases hok : checkShape translated source settings with
  | error err =>
    cases hok' : checkShape (translated.withRaw new) (source.withRaw new) settings with
    | error err' => simpa [hok, hok'] using hshape
    | ok _ => cases err <;> simp [hok, hok', verdictOf] at hshape
  | ok _ =>
    cases hok' : checkShape (translated.withRaw new) (source.withRaw new) settings with
    | error err' => cases err' <;> simp [hok, hok', verdictOf] at hshape
    | ok _ =>
      have hleaks := @verdictOf_checkLeaks translated source
        ((properNounAllowlist.getD []).map lower)
      revert hleaks
      generalize verdictOf (checkLeaks translated source _) = leaks
      intro hleaks
      have hnot : ∀ i, leaks ≠ .reject 6 (some [i]) ∧ leaks ≠ .reject 8 (some [i]) := by
        rcases hleaks with rfl | ⟨check, hmem, failing, rfl⟩
        · simp
        · simp only [leakChecks, List.mem_cons, List.not_mem_nil, or_false] at hmem
          intro i
          constructor <;> intro heq <;> cases heq <;> omega
      refine (lateVerdict_eq_iff hnot).trans ?_
      simp

end Checks

/-- A cue of a dialogue and a block without a timecode line. -/
def withBlock (text block : Str) : SubDoc where
  lines := [{ index := "1", startTc := "00:00:01,000", endTc := "00:00:02,000", text := text },
    { index := [], startTc := [], endTc := [], text := block, raw := some block }]
  encoding := "utf-8"
  lineEnding := "\n"
  separators := []

def greetingDoc : SubDoc := withBlock "Xin chào bạn." "2\nno timecode"

def greetingSource : SubDoc := withBlock "Hello." "2\nno timecode"

theorem greeting_agrees : RawAgree greetingDoc greetingSource := by
  intro i trn src htrn hsrc
  match i with
  | 0 => cases htrn; cases hsrc; exact ⟨rfl, nofun⟩
  | 1 => cases htrn; cases hsrc; exact ⟨rfl, fun _ => rfl⟩
  | _ + 2 => cases htrn

/-- Another block that is no cue either keeps the translation from being written. -/
theorem block_quarantines : RawAgree greetingDoc greetingSource ∧
    verdictOf (validateSubdoc greetingDoc greetingSource {} none) = .accept ∧
    verdictOf (validateSubdoc (greetingDoc.withRaw fun _ => ("2\n<<T1>>", "2\n<<T1>>"))
      (greetingSource.withRaw fun _ => ("2\n<<T1>>", "2\n<<T1>>")) {} none) =
        .reject 6 (some [1]) :=
  ⟨greeting_agrees, by decide +kernel, by decide +kernel⟩

theorem block_inert :
    verdictOf (validateSubdoc (greetingDoc.withRaw fun _ => ("3\nnone", "3\nnone"))
        (greetingSource.withRaw fun _ => ("3\nnone", "3\nnone")) {} none) =
      verdictOf (validateSubdoc greetingDoc greetingSource {} none) := by
  refine (verdict_withRaw_iff greeting_agrees {} none _).mpr (.inr ⟨?_, fun _ => ?_⟩)
  · decide
  · decide

end Trezarr
