import Mathlib.Data.List.Chain
import Trezarr.Translate.Assembly

/-! What a batch may hold, and why it ends where it does. -/
namespace Trezarr
open Text Fallible

/-- A cue and its place in the document. -/
abbrev Placed := SubLine × ℕ

def sentPlaces (lines : List SubLine) : List Placed :=
  lines.zipIdx.filter fun cue => cue.1.raw.isNone

def textLength (part : List Placed) : ℕ := (part.map fun cue => cue.1.text.length).sum

/-- The place of a part's first cue. -/
def startOf (part : List Placed) : ℕ := (part.head?.map Prod.snd).getD 0

namespace Limits

variable (lim : Limits)

/-- The gap to the cue just before, whether or not that one is raw. -/
def gapAt (cue : Placed) : Except PyError ℤ :=
  gapBefore (lim.allLines.take cue.2).getLast? cue.1

/-- A part that is a batch: only its first cue may follow a gap or be too long. -/
structure Fits (part : List Placed) : Prop where
  nonempty : part ≠ []
  count : (part.length : ℤ) ≤ max 1 lim.maxCues
  budget : 1 < part.length → (textLength part : ℤ) ≤ lim.budgetChars
  noGap : ∀ cue ∈ part.tail, ∃ gap, lim.gapAt cue = .ok gap ∧ gap < lim.sceneGapMs

/-- The cue does not join the part: it follows a gap, or the part has no room for it. -/
def CutBefore (part : List Placed) (cue : Placed) : Prop :=
  (∃ gap, lim.gapAt cue = .ok gap ∧ lim.sceneGapMs ≤ gap) ∨
    lim.budgetChars < textLength part + cue.1.text.length ∨ lim.maxCues ≤ part.length

def Cut (part next : List Placed) : Prop := ∃ cue ∈ next.head?, lim.CutBefore part cue

/-- Every part fits, and each is cut from the next for a reason. -/
structure Packed (parts : List (List Placed)) : Prop where
  fits : ∀ part ∈ parts, lim.Fits part
  cut : parts.IsChain lim.Cut

def closeAt (part : List Placed) (nextIdx : ℕ) : Batch :=
  makeBatch (part.map Prod.fst) lim.allLines nextIdx lim.contextLinesK

/-- The batches of all parts but the last, each closed where the next one starts. -/
def closings (parts : List (List Placed)) : List Batch :=
  List.zipWith lim.closeAt parts (parts.tail.map startOf)

/-- The batches of all parts; the last one ends with the document. -/
def batchesOf (parts : List (List Placed)) : List Batch :=
  List.zipWith lim.closeAt parts (parts.tail.map startOf ++ [lim.allLines.length])

end Limits

section Steps

variable {lim : Limits} {part cur : List Placed} {parts closed : List (List Placed)}
  {cue : Placed} {gap : ℤ}

theorem textLength_concat (part : List Placed) (cue : Placed) :
    textLength (part ++ [cue]) = textLength part + cue.1.text.length := by
  simp [textLength]

theorem startOf_concat (h : part ≠ []) (cue : Placed) : startOf (part ++ [cue]) = startOf part := by
  obtain ⟨first, rest, rfl⟩ := List.exists_cons_of_ne_nil h
  rfl

theorem Limits.Fits.single (lim : Limits) (cue : Placed) : lim.Fits [cue] where
  nonempty := List.cons_ne_nil _ _
  count := le_max_left _ _
  budget h := absurd h (lt_irrefl 1)
  noGap _ h := absurd h List.not_mem_nil

theorem Limits.Fits.concat (h : lim.Fits part) (hgap : lim.gapAt cue = .ok gap)
    (hcut : ¬ lim.CutBefore part cue) : lim.Fits (part ++ [cue]) where
  nonempty := by simp
  count := by
    have hroom : ¬ lim.maxCues ≤ part.length := fun hm => hcut (Or.inr (Or.inr hm))
    rw [List.length_append, List.length_singleton]
    have := le_max_right 1 lim.maxCues
    omega
  budget _ := by
    have hroom : ¬ lim.budgetChars < textLength part + cue.1.text.length :=
      fun hm => hcut (Or.inr (Or.inl hm))
    rw [textLength_concat]
    omega
  noGap later hlater := by
    obtain ⟨first, rest, rfl⟩ := List.exists_cons_of_ne_nil h.nonempty
    rcases List.mem_append.mp hlater with hold | hnew
    · exact h.noGap later hold
    · rw [List.mem_singleton.mp hnew]
      exact ⟨gap, hgap, lt_of_not_ge fun hge => hcut (Or.inl ⟨gap, hgap, hge⟩)⟩

theorem Limits.Packed.single (lim : Limits) (cue : Placed) : lim.Packed [[cue]] where
  fits part hpart := by
    rw [List.mem_singleton.mp hpart]
    exact .single lim cue
  cut := .singleton _

theorem Limits.Packed.cutBefore (h : lim.Packed (closed ++ [cur])) (hcut : lim.CutBefore cur cue) :
    lim.Packed (closed ++ [cur] ++ [[cue]]) where
  fits part hpart := by
    rcases List.mem_append.mp hpart with hold | hnew
    · exact h.fits part hold
    · rw [List.mem_singleton.mp hnew]
      exact .single lim cue
  cut := by
    refine List.isChain_append.mpr ⟨h.cut, .singleton _, ?_⟩
    intro part hpart next hnext
    rw [List.getLast?_concat, Option.mem_some_iff] at hpart
    rw [List.head?_cons, Option.mem_some_iff] at hnext
    subst hpart hnext
    exact ⟨cue, rfl, hcut⟩

theorem Limits.Packed.extend (h : lim.Packed (closed ++ [cur])) (hgap : lim.gapAt cue = .ok gap)
    (hcut : ¬ lim.CutBefore cur cue) : lim.Packed (closed ++ [cur ++ [cue]]) where
  fits part hpart := by
    rcases List.mem_append.mp hpart with hold | hnew
    · exact h.fits part (List.mem_append_left _ hold)
    · rw [List.mem_singleton.mp hnew]
      exact (h.fits cur (by simp)).concat hgap hcut
  cut := by
    obtain ⟨hclosed, -, hlast⟩ := List.isChain_append.mp h.cut
    refine List.isChain_append.mpr ⟨hclosed, .singleton _, ?_⟩
    intro part hpart next hnext
    obtain ⟨first, hfirst, hbefore⟩ := hlast part hpart cur (by simp)
    rw [List.head?_cons, Option.mem_some_iff] at hnext
    subst hnext
    obtain ⟨_, rest, rfl⟩ := List.exists_cons_of_ne_nil (h.fits cur (by simp)).nonempty
    exact ⟨first, hfirst, hbefore⟩

/-- The places where the parts after the first one start. -/
theorem starts_concat (closed : List (List Placed)) (cur next : List Placed) :
    (closed ++ [cur] ++ [next]).tail.map startOf =
      (closed ++ [cur]).tail.map startOf ++ [startOf next] := by
  rw [List.tail_append_of_ne_nil (by simp), List.map_append, List.map_singleton]

theorem length_starts (closed : List (List Placed)) (cur : List Placed) :
    closed.length = ((closed ++ [cur]).tail.map startOf).length := by
  simp

theorem closings_eq (lim : Limits) (closed : List (List Placed)) (cur : List Placed) :
    lim.closings (closed ++ [cur]) =
      List.zipWith lim.closeAt closed ((closed ++ [cur]).tail.map startOf) := by
  have happend := @List.zipWith_append _ _ _ lim.closeAt _ [cur] _ [] (length_starts closed cur)
  rw [List.append_nil] at happend
  rw [Limits.closings, happend, List.zipWith_nil_right, List.append_nil]

theorem zipWith_closed (lim : Limits) (closed : List (List Placed)) (cur : List Placed) (n : ℕ) :
    List.zipWith lim.closeAt (closed ++ [cur]) ((closed ++ [cur]).tail.map startOf ++ [n]) =
      lim.closings (closed ++ [cur]) ++ [lim.closeAt cur n] := by
  rw [closings_eq, List.zipWith_append (length_starts closed cur)]
  rfl

theorem batchesOf_concat (lim : Limits) (closed : List (List Placed)) (cur : List Placed) :
    lim.batchesOf (closed ++ [cur]) =
      lim.closings (closed ++ [cur]) ++ [lim.closeAt cur lim.allLines.length] :=
  zipWith_closed lim closed cur _

theorem closings_concat (lim : Limits) (closed : List (List Placed)) (cur next : List Placed) :
    lim.closings (closed ++ [cur] ++ [next]) =
      lim.closings (closed ++ [cur]) ++ [lim.closeAt cur (startOf next)] := by
  rw [closings_eq, starts_concat, zipWith_closed]

theorem closings_extend (lim : Limits) (closed : List (List Placed)) (h : cur ≠ []) (cue : Placed) :
    lim.closings (closed ++ [cur ++ [cue]]) = lim.closings (closed ++ [cur]) := by
  have hstarts : (closed ++ [cur ++ [cue]]).tail.map startOf =
      (closed ++ [cur]).tail.map startOf := by
    cases closed with
    | nil => rfl
    | cons part closed => simp [startOf_concat h]
  rw [closings_eq, closings_eq, hstarts]

end Steps

section Run

variable {lim : Limits} {st st' : Packing} {closed : List (List Placed)} {cur : List Placed}
  {cue : SubLine} {gap : ℤ} {i : ℕ}

/-- What the packer holds, as parts of the document: those closed and the current one. -/
structure Tracks (lim : Limits) (st : Packing) (closed : List (List Placed))
    (cur : List Placed) : Prop where
  batches : st.batches = lim.closings (closed ++ [cur])
  current : st.current = cur.map Prod.fst
  chars : st.currentChars = textLength cur
  first : cur = [] → closed = []
  packed : cur ≠ [] → lim.Packed (closed ++ [cur])

theorem Tracks.current_eq_nil (h : Tracks lim st closed cur) : st.current = [] ↔ cur = [] := by
  rw [h.current, List.map_eq_nil_iff]

theorem Tracks.wouldOverflow (h : Tracks lim st closed cur) :
    st.wouldOverflow lim cue = true ↔ lim.budgetChars < textLength cur + cue.text.length ∨
      lim.maxCues ≤ cur.length := by
  rw [Packing.wouldOverflow, h.current, h.chars, List.length_map, Bool.or_eq_true,
    decide_eq_true_eq, decide_eq_true_eq]

/-- The first cue of all. -/
theorem Tracks.start (h : Tracks lim st closed []) : Tracks lim (st.add cue) [] [(cue, i)] where
  batches := by
    rw [Packing.add, h.batches, h.first rfl]
    rfl
  current := by
    rw [Packing.add, h.current]
    rfl
  chars := by
    rw [Packing.add, h.chars]
    simp [textLength]
  first h := absurd h (List.cons_ne_nil _ _)
  packed _ := .single lim _

theorem Tracks.cutBefore (h : Tracks lim st closed cur) (hne : cur ≠ [])
    (hcut : lim.CutBefore cur (cue, i)) :
    Tracks lim ((st.close lim i).add cue) (closed ++ [cur]) [(cue, i)] where
  batches := by
    have hclose : lim.closeAt cur i = makeBatch st.current lim.allLines i lim.contextLinesK := by
      rw [Limits.closeAt, h.current]
    rw [closings_concat, ← h.batches]
    exact congrArg (st.batches ++ [·]) hclose.symm
  current := rfl
  chars := by simp [Packing.add, Packing.close, textLength]
  first h := absurd h (List.cons_ne_nil _ _)
  packed _ := (h.packed hne).cutBefore hcut

theorem Tracks.extend (h : Tracks lim st closed cur) (hne : cur ≠ [])
    (hgap : lim.gapAt (cue, i) = .ok gap) (hcut : ¬ lim.CutBefore cur (cue, i)) :
    Tracks lim (st.add cue) closed (cur ++ [(cue, i)]) where
  batches := by
    rw [closings_extend lim closed hne, ← h.batches]
    rfl
  current := by simp [Packing.add, h.current]
  chars := by simp [Packing.add, h.chars, textLength_concat]
  first h := absurd h (by simp)
  packed _ := (h.packed hne).extend hgap hcut

/-- One cue that is sent: it starts the next part or joins the current one. -/
theorem Tracks.step (h : Tracks lim st closed cur) (hgap : lim.gapAt (cue, i) = .ok gap) :
    ∃ closed' cur', Tracks lim ((if st.current ≠ [] && (lim.sceneGapMs ≤ gap ||
        st.wouldOverflow lim cue) then st.close lim i else st).add cue) closed' cur' ∧
      (closed' ++ [cur']).flatten = (closed ++ [cur]).flatten ++ [(cue, i)] := by
  by_cases hne : cur = []
  · have hcur := h.current_eq_nil.mpr hne
    subst hne
    refine ⟨[], [(cue, i)], ?_, by rw [h.first rfl]; rfl⟩
    rw [hcur]
    exact h.start
  · have hcur : st.current ≠ [] := fun he => hne (h.current_eq_nil.mp he)
    have hcut : lim.CutBefore cur (cue, i) ↔
        (lim.sceneGapMs ≤ gap || st.wouldOverflow lim cue) = true := by
      rw [Limits.CutBefore, hgap, Bool.or_eq_true, decide_eq_true_eq, h.wouldOverflow]
      simp only [Except.ok.injEq, exists_eq_left']
    by_cases hfull : lim.CutBefore cur (cue, i)
    · refine ⟨closed ++ [cur], [(cue, i)], ?_, by simp⟩
      rw [hcut.mp hfull]
      simpa [hcur] using h.cutBefore hne hfull
    · refine ⟨closed, cur ++ [(cue, i)], ?_, by simp⟩
      rw [Bool.eq_false_iff.mpr fun he => hfull (hcut.mpr he)]
      simpa using h.extend hne hgap hfull

theorem sentPlaces_cons_raw {line : SubLine} {rest : List SubLine} {n : ℕ}
    (h : line.raw.isSome = true) :
    ((line :: rest).zipIdx n).filter (fun cue => cue.1.raw.isNone) =
      (rest.zipIdx (n + 1)).filter fun cue => cue.1.raw.isNone := by
  rw [List.zipIdx_cons, List.filter_cons, if_neg]
  rw [Option.isNone_iff_eq_none]
  intro hnone
  rw [hnone] at h
  cases h

theorem packFrom_tracks {lines : List SubLine} :
    ∀ {done : List SubLine} {st st' : Packing} {closed : List (List Placed)} {cur : List Placed},
      lim.allLines = done ++ lines → Tracks lim st closed cur →
      packFrom lim st done.getLast? done.length lines = .ok st' →
      ∃ closed' cur', Tracks lim st' closed' cur' ∧ (closed' ++ [cur']).flatten =
        (closed ++ [cur]).flatten ++
          (lines.zipIdx done.length).filter fun cue => cue.1.raw.isNone := by
  induction lines with
  | nil =>
    intro done st st' closed cur _ ht h
    cases h
    exact ⟨closed, cur, ht, by simp⟩
  | cons cue rest ih =>
    intro done st st' closed cur hlines ht h
    have hsplit : lim.allLines = (done ++ [cue]) ++ rest := by simpa using hlines
    have hlast : (done ++ [cue]).getLast? = some cue := List.getLast?_concat
    have hlength : (done ++ [cue]).length = done.length + 1 := by simp
    cases hraw : cue.raw.isSome with
    | true =>
      rw [packFrom, if_pos hraw, ← hlast, ← hlength] at h
      obtain ⟨closed', cur', ht', hflatten⟩ := ih hsplit ht h
      refine ⟨closed', cur', ht', ?_⟩
      rw [hflatten, hlength, sentPlaces_cons_raw hraw]
    | false =>
      rw [packFrom, hraw, if_neg Bool.false_ne_true] at h
      obtain ⟨gap, hgap, hrest⟩ := bind_ok h
      have hgapAt : lim.gapAt (cue, done.length) = .ok gap := by
        rw [Limits.gapAt, hlines]
        dsimp only
        rwa [List.take_left']
        rfl
      obtain ⟨closed₁, cur₁, ht₁, hflatten₁⟩ := ht.step hgapAt
      dsimp only at hrest
      rw [← hlast, ← hlength] at hrest
      obtain ⟨closed', cur', ht', hflatten⟩ := ih hsplit ht₁ hrest
      refine ⟨closed', cur', ht', ?_⟩
      have hnone : cue.raw.isNone = true := by
        cases hr : cue.raw with
        | none => rfl
        | some raw => simp [hr] at hraw
      rw [hflatten, hflatten₁, hlength, List.zipIdx_cons, List.filter_cons, if_pos hnone]
      simp

end Run

/-- The limits a document is packed under. -/
def packingLimits (doc : SubDoc) (settings : TrezarrSettings)
    (budgetChars contextLinesK maxCues : ℤ) : Limits where
  allLines := doc.lines
  budgetChars := budgetChars
  maxCues := maxCues
  sceneGapMs := settings.translateSceneGapMs
  contextLinesK := contextLinesK

section Documents

variable {doc : SubDoc} {settings : TrezarrSettings} {k k' maxCues : ℤ} {batches : List Batch}

theorem batchSubdoc_parts (h : batchSubdoc doc settings k maxCues = .ok batches) :
    ∃ budget parts, computeBudgetChars settings = .ok budget ∧
      batches = (packingLimits doc settings budget k maxCues).batchesOf parts ∧
      parts.flatten = sentPlaces doc.lines ∧
      (packingLimits doc settings budget k maxCues).Packed parts := by
  obtain ⟨budget, hbudget, h⟩ := bind_ok h
  obtain ⟨st, hst, h⟩ := bind_ok h
  cases h
  have hstart : Tracks (packingLimits doc settings budget k maxCues) {} [] [] :=
    ⟨rfl, rfl, rfl, fun _ => rfl, fun h => absurd rfl h⟩
  obtain ⟨closed, cur, ht, hflatten⟩ := @packFrom_tracks _ _ [] _ _ _ _ rfl hstart hst
  by_cases hcur : cur = []
  · have hclosed := ht.first hcur
    subst hcur hclosed
    refine ⟨budget, [], hbudget, ?_, hflatten, ⟨nofun, .nil⟩⟩
    rw [if_neg (not_not.mpr (ht.current_eq_nil.mpr rfl)), ht.batches]
    rfl
  · refine ⟨budget, closed ++ [cur], hbudget, ?_, hflatten, ht.packed hcur⟩
    rw [if_pos fun he => hcur (ht.current_eq_nil.mp he), batchesOf_concat, ← ht.batches,
      Limits.closeAt, ← ht.current]
    rfl

theorem map_cues_batchesOf (lim : Limits) (parts : List (List Placed)) :
    (lim.batchesOf parts).map Batch.cues = parts.map fun part => part.map Prod.fst := by
  have hlength : (lim.batchesOf parts).length = parts.length := by
    simp only [Limits.batchesOf, List.length_zipWith, List.length_append, List.length_map,
      List.length_tail, List.length_singleton]
    omega
  refine List.ext_getElem (by simpa using hlength) fun i _ _ => ?_
  simp [Limits.batchesOf, Limits.closeAt, makeBatch]

/-- All of a packing but the windows. -/
def Packing.view (st : Packing) : List (List SubLine) × List SubLine × ℕ :=
  (st.batches.map Batch.cues, st.current, st.currentChars)

def Packing.finish (st : Packing) (lim : Limits) : List Batch :=
  (if st.current ≠ [] then st.close lim lim.allLines.length else st).batches

end Documents

end Trezarr
