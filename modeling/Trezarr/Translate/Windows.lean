import Trezarr.Lib.Sorting
import Trezarr.Translate.Packing

/-! The context a batch is shown: the cues around it in the document. -/
namespace Trezarr
open Text Fallible

section Windows

variable {α : Type} {lines : List α} {a b k : ℕ}

/-- Up to `k` elements before a place. -/
def windowBefore (lines : List α) (place k : ℕ) : List α := (lines.take place).drop (place - k)

/-- Up to `k` elements from a place on. -/
def windowAfter (lines : List α) (place k : ℕ) : List α := (lines.drop place).take k

theorem windowBefore_zero (lines : List α) (place : ℕ) : windowBefore lines place 0 = [] := by
  simp [windowBefore]

theorem windowAfter_zero (lines : List α) (place : ℕ) : windowAfter lines place 0 = [] := by
  simp [windowAfter]

theorem slice_of_nonneg (lines : List α) (a b : ℕ) :
    slice lines a b = (lines.take b).drop a := by
  simp [slice, not_lt.mpr (Int.natCast_nonneg _)]

theorem getLast?_windowBefore (hk : 0 < k) (ha : a ≤ lines.length) :
    (windowBefore lines a k).getLast? = (lines.take a).getLast? := by
  cases a with
  | zero => simp [windowBefore]
  | succ a =>
    rw [windowBefore, List.getLast?_drop, if_neg]
    simp only [List.length_take]
    omega

theorem head?_windowAfter (hk : 0 < k) : (windowAfter lines a k).head? = lines[a]? := by
  rw [windowAfter, List.head?_take, if_neg (by omega), List.head?_drop]

theorem getLast?_take (ha : a < lines.length) : (lines.take (a + 1)).getLast? = lines[a]? := by
  rw [List.take_add_one, List.getElem?_eq_getElem ha]
  exact List.getLast?_concat

/-- Windows before two places are told apart by what is just before them. -/
theorem eq_of_windowBefore (hn : lines.Nodup) (hk : 0 < k) (ha : a ≤ lines.length)
    (hb : b ≤ lines.length) (h : windowBefore lines a k = windowBefore lines b k) : a = b := by
  have hlast := congrArg List.getLast? h
  rw [getLast?_windowBefore hk ha, getLast?_windowBefore hk hb] at hlast
  cases a with
  | zero =>
    cases b with
    | zero => rfl
    | succ b =>
      rw [getLast?_take hb, List.getElem?_eq_getElem hb] at hlast
      cases hlast
  | succ a =>
    rw [getLast?_take ha] at hlast
    cases b with
    | zero =>
      rw [List.getElem?_eq_getElem ha] at hlast
      cases hlast
    | succ b =>
      rw [getLast?_take hb] at hlast
      rw [(List.getElem?_inj ha hn).mp hlast]

theorem eq_of_windowAfter (hn : lines.Nodup) (hk : 0 < k) (ha : a ≤ lines.length)
    (hb : b ≤ lines.length) (h : windowAfter lines a k = windowAfter lines b k) : a = b := by
  have hhead := congrArg List.head? h
  rw [head?_windowAfter hk, head?_windowAfter hk] at hhead
  by_cases hlt : a < lines.length
  · exact (List.getElem?_inj hlt hn).mp hhead
  · rw [List.getElem?_eq_none (by omega)] at hhead
    have hlen := List.getElem?_eq_none_iff.mp hhead.symm
    omega

end Windows

section Places

variable {places : List ℕ} {n : ℕ}

/-- As many places in a row as there are, without a gap. -/
theorem eq_range'_of_ascending (h : places.Pairwise (· < ·))
    (hb : ∀ i ∈ places, n ≤ i ∧ i < n + places.length) : places = List.range' n places.length := by
  induction places generalizing n with
  | nil => rfl
  | cons i places ih =>
    obtain ⟨hi, hrest⟩ := List.pairwise_cons.mp h
    have hfirst := hb i List.mem_cons_self
    have htail : places = List.range' (n + 1) places.length := by
      refine ih hrest fun j hj => ?_
      have hj' := hb j (List.mem_cons_of_mem i hj)
      have hij := hi j hj
      rw [List.length_cons] at hj'
      omega
    have hin : i = n := by
      cases places with
      | nil =>
        rw [List.length_singleton] at hfirst
        omega
      | cons j rest =>
        rw [List.length_cons, List.range'_succ] at htail
        have hj := hi j List.mem_cons_self
        rw [(List.cons.inj htail).1] at hj
        omega
    rw [List.length_cons, List.range'_succ, hin, ← htail]

end Places

/-- The place after a part's last cue. -/
def endOf (part : List Placed) : ℕ := ((part.getLast?.map Prod.snd).map Nat.succ).getD 0

/-- A batch shown the cues just before its first and just after its last one, none its own. -/
structure WindowRight (lines : List SubLine) (k : ℕ) (part : List Placed) (batch : Batch) :
    Prop where
  cues : batch.cues = part.map Prod.fst
  before : batch.contextBefore = windowBefore lines (startOf part) k
  after : batch.contextAfter = windowAfter lines (endOf part) k
  apart : ∀ cue ∈ part, startOf part ≤ cue.2 ∧ cue.2 < endOf part

def WindowsRight (lines : List SubLine) (k : ℕ) (batches : List Batch) : Prop :=
  ∃ parts, parts.flatten = sentPlaces lines ∧ List.Forall₂ (WindowRight lines k) parts batches

/-- No raw cue comes after one that is sent. -/
def RawFirst (lines : List SubLine) : Prop :=
  lines.Pairwise fun a b => b.raw.isSome = true → a.raw.isSome = true

section Parts

variable {P Q : List Placed → ℕ → Prop} {R : List Placed → Batch → Prop} {part : List Placed}
  {parts : List (List Placed)} {len n m : ℕ} {lim : Limits}

/-- Where the first part starts, or the end of the document. -/
def firstStart (len : ℕ) (parts : List (List Placed)) : ℕ := (parts.head?.map startOf).getD len

/-- Every part with the place where it is closed. -/
def EachNext (P : List Placed → ℕ → Prop) (len : ℕ) : List (List Placed) → Prop
  | [] => True
  | part :: rest => P part (firstStart len rest) ∧ EachNext P len rest

theorem EachNext.and (h : EachNext P len parts) (h' : EachNext Q len parts) :
    EachNext (fun part n => P part n ∧ Q part n) len parts := by
  induction parts with
  | nil => trivial
  | cons part rest ih => exact ⟨⟨h.1, h'.1⟩, ih h.2 h'.2⟩

theorem EachNext.mono (h : EachNext P len parts) (hpq : ∀ part n, P part n → Q part n) :
    EachNext Q len parts := by
  induction parts with
  | nil => trivial
  | cons part rest ih => exact ⟨hpq part _ h.1, ih h.2⟩

theorem batchesOf_cons (lim : Limits) (part : List Placed) (rest : List (List Placed)) :
    lim.batchesOf (part :: rest) =
      lim.closeAt part (firstStart lim.allLines.length rest) :: lim.batchesOf rest := by
  cases rest <;> rfl

theorem forall₂_batchesOf : List.Forall₂ R parts (lim.batchesOf parts) ↔
    EachNext (fun part n => R part (lim.closeAt part n)) lim.allLines.length parts := by
  induction parts with
  | nil => exact ⟨fun _ => trivial, fun _ => .nil⟩
  | cons part rest ih => rw [batchesOf_cons, List.forall₂_cons, ih, EachNext]

/-- The places of a part go up and are all before the place where it is closed. -/
structure Bounded (len : ℕ) (part : List Placed) (n : ℕ) : Prop where
  nonempty : part ≠ []
  ascending : (part.map Prod.snd).Pairwise (· < ·)
  below : ∀ i ∈ part.map Prod.snd, i < n
  inside : n ≤ len

theorem eachNext_bounded (hne : ∀ part ∈ parts, part ≠ [])
    (hasc : (parts.flatten.map Prod.snd).Pairwise (· < ·))
    (hlt : ∀ i ∈ parts.flatten.map Prod.snd, i < len) : EachNext (Bounded len) len parts := by
  induction parts with
  | nil => trivial
  | cons part rest ih =>
    rw [List.flatten_cons, List.map_append, List.pairwise_append] at hasc
    rw [List.flatten_cons, List.map_append] at hlt
    obtain ⟨hpart, hrest, hbetween⟩ := hasc
    refine ⟨?_, ih (fun p hp => hne p (List.mem_cons_of_mem part hp)) hrest
      fun i hi => hlt i (List.mem_append_right _ hi)⟩
    have hne' := hne part List.mem_cons_self
    cases rest with
    | nil => exact ⟨hne', hpart, fun i hi => hlt i (List.mem_append_left _ hi), le_rfl⟩
    | cons next rest =>
      obtain ⟨first, others, rfl⟩ := List.exists_cons_of_ne_nil
        (hne next (List.mem_cons_of_mem part List.mem_cons_self))
      have hmem : first.2 ∈ (((first :: others) :: rest).flatten).map Prod.snd := by simp
      exact ⟨hne', hpart, fun i hi => hbetween i hi first.2 hmem,
        (hlt first.2 (List.mem_append_right _ hmem)).le⟩

theorem startOf_mem (h : part ≠ []) : startOf part ∈ part.map Prod.snd := by
  obtain ⟨first, rest, rfl⟩ := List.exists_cons_of_ne_nil h
  exact List.mem_cons_self

theorem exists_endOf (h : part ≠ []) : ∃ i ∈ part.map Prod.snd, endOf part = i + 1 := by
  refine ⟨(part.getLast h).2, List.mem_map_of_mem (List.getLast_mem h), ?_⟩
  rw [endOf, List.getLast?_eq_some_getLast h]
  rfl

theorem Bounded.startOf_le (h : Bounded len part n) {i : ℕ} (hi : i ∈ part.map Prod.snd) :
    startOf part ≤ i := by
  obtain ⟨first, rest, rfl⟩ := List.exists_cons_of_ne_nil h.nonempty
  rcases List.mem_cons.mp hi with rfl | hi
  · exact le_rfl
  · exact ((List.pairwise_cons.mp h.ascending).1 i hi).le

theorem Bounded.lt_endOf (h : Bounded len part n) {i : ℕ} (hi : i ∈ part.map Prod.snd) :
    i < endOf part := by
  have hsplit := List.dropLast_append_getLast h.nonempty
  have hend : endOf part = (part.getLast h.nonempty).2 + 1 := by
    rw [endOf, List.getLast?_eq_some_getLast h.nonempty]
    rfl
  have hasc := h.ascending
  rw [← hsplit, List.map_append, List.pairwise_append] at hasc
  rw [← hsplit, List.map_append, List.mem_append] at hi
  rw [hend]
  rcases hi with hinit | hlast
  · exact (hasc.2.2 i hinit _ (List.mem_singleton_self _)).trans (Nat.lt_succ_self _)
  · rw [List.map_singleton, List.mem_singleton] at hlast
    omega

theorem Bounded.length_le (h : Bounded len part n) : part.length ≤ n := by
  have hsub : part.map Prod.snd ⊆ List.range n := fun i hi => List.mem_range.mpr (h.below i hi)
  have hnodup : (part.map Prod.snd).Nodup := h.ascending.imp ne_of_lt
  simpa using (List.subperm_of_subset hnodup hsub).length_le

/-- The places of a part, when as many as its cues lie between its first and its last. -/
theorem Bounded.places_eq (h : Bounded len part n)
    (hlen : startOf part + part.length = endOf part) :
    part.map Prod.snd = List.range' (startOf part) part.length := by
  have hrange := eq_range'_of_ascending (n := startOf part) h.ascending fun i hi => by
    rw [List.length_map, hlen]
    exact ⟨h.startOf_le hi, h.lt_endOf hi⟩
  rwa [List.length_map] at hrange

theorem endOf_of_places (h : part ≠ [])
    (hplaces : part.map Prod.snd = List.range' n part.length) : endOf part = n + part.length := by
  have hpos := List.length_pos_of_ne_nil h
  rw [endOf, ← List.getLast?_map, hplaces, List.getLast?_range', if_neg (by omega)]
  simp only [Option.map_some, Option.getD_some]
  omega

theorem startOf_of_places (h : part ≠ [])
    (hplaces : part.map Prod.snd = List.range' n part.length) : startOf part = n := by
  obtain ⟨first, rest, rfl⟩ := List.exists_cons_of_ne_nil h
  exact (List.cons.inj hplaces).1

/-- A part whose cues are one after another, up to where it is closed. -/
def Contiguous (part : List Placed) (n : ℕ) : Prop :=
  startOf part + part.length = n ∧ endOf part = n

theorem eachNext_contiguous (hne : ∀ part ∈ parts, part ≠ [])
    (hplaces : parts.flatten.map Prod.snd = List.range' m parts.flatten.length)
    (hlen : m + parts.flatten.length = len) :
    EachNext Contiguous len parts ∧ firstStart len parts = m := by
  induction parts generalizing m with
  | nil => exact ⟨trivial, hlen.symm⟩
  | cons part rest ih =>
    have hne' := hne part List.mem_cons_self
    rw [List.flatten_cons, List.length_append] at hlen
    rw [List.flatten_cons, List.map_append, List.length_append, ← List.range'_append_1] at hplaces
    obtain ⟨hpart, hrest⟩ := List.append_inj hplaces (by simp)
    obtain ⟨hnext, hfirst⟩ := ih (fun p hp => hne p (List.mem_cons_of_mem part hp)) hrest
      (by omega)
    have hstart := startOf_of_places hne' hpart
    refine ⟨⟨⟨?_, ?_⟩, hnext⟩, hstart⟩
    · rw [hstart, hfirst]
    · rw [endOf_of_places hne' hpart, hfirst]

theorem places_of_contiguous (hb : EachNext (Bounded len) len parts)
    (hu : EachNext Contiguous len parts) :
    parts.flatten.map Prod.snd = List.range' (firstStart len parts) parts.flatten.length ∧
      firstStart len parts + parts.flatten.length = len := by
  induction parts with
  | nil => exact ⟨rfl, rfl⟩
  | cons part rest ih =>
    obtain ⟨hrest, hlen⟩ := ih hb.2 hu.2
    obtain ⟨hstart, hend⟩ := hu.1
    have hfirst : firstStart len (part :: rest) = startOf part := rfl
    have hpart := hb.1.places_eq (hstart.trans hend.symm)
    rw [List.flatten_cons, List.map_append, List.length_append, ← List.range'_append_1, hfirst,
      hstart, ← hrest, ← hpart]
    exact ⟨rfl, by omega⟩

end Parts

section Raw

theorem rawFirst_cons_of_sent {line : SubLine} {rest : List SubLine} (h : line.raw.isNone = true) :
    RawFirst (line :: rest) ↔ ∀ other ∈ rest, other.raw.isNone = true := by
  have hline : line.raw.isSome = false := by rw [Option.isNone_iff_eq_none.mp h]; rfl
  have hraw (other : SubLine) : (other.raw.isSome = true → line.raw.isSome = true) ↔
      other.raw.isNone = true := by
    rw [hline, ← Option.not_isSome, Bool.not_eq_true']
    exact ⟨fun ho => Bool.eq_false_iff.mpr fun hs => Bool.false_ne_true (ho hs),
      fun ho hs => (Bool.false_ne_true (ho.symm.trans hs)).elim⟩
  rw [RawFirst, List.pairwise_cons]
  simp only [hraw]
  refine and_iff_left_of_imp fun hall => List.pairwise_of_forall_mem_list fun a _ b hb hs => ?_
  rw [Option.isNone_iff_eq_none.mp (hall b hb)] at hs
  cases hs

/-- The sent cues are all the places from some place on. -/
def TailSent (n len : ℕ) (places : List Placed) : Prop :=
  ∃ m, places.map Prod.snd = List.range' m places.length ∧ m + places.length = n + len

theorem rawFirst_iff {lines : List SubLine} {n : ℕ} : RawFirst lines ↔
    TailSent n lines.length ((lines.zipIdx n).filter fun cue => cue.1.raw.isNone) := by
  induction lines generalizing n with
  | nil => exact ⟨fun _ => ⟨n, rfl, rfl⟩, fun _ => .nil⟩
  | cons line rest ih =>
    cases hraw : line.raw with
    | some raw =>
      have hfirst : RawFirst (line :: rest) ↔ RawFirst rest := by
        rw [RawFirst, List.pairwise_cons]
        exact and_iff_right fun other _ _ => by rw [hraw]; rfl
      rw [hfirst, @ih (n + 1), sentPlaces_cons_raw (by rw [hraw]; rfl), List.length_cons, TailSent,
        TailSent, Nat.add_right_comm, Nat.add_assoc]
    | none =>
      have hnone : line.raw.isNone = true := by rw [hraw]; rfl
      rw [rawFirst_cons_of_sent hnone, List.zipIdx_cons, List.filter_cons, if_pos hnone, TailSent,
        List.map_cons, List.length_cons, List.length_cons]
      constructor
      · intro hall
        have hself : (rest.zipIdx (n + 1)).filter (fun cue => cue.1.raw.isNone) =
            rest.zipIdx (n + 1) :=
          List.filter_eq_self.mpr fun cue hcue => hall cue.1 (List.fst_mem_of_mem_zipIdx hcue)
        refine ⟨n, ?_, by rw [hself, List.length_zipIdx]⟩
        rw [hself, List.length_zipIdx, List.zipIdx_map_snd, List.range'_succ]
      · intro ⟨m, hplaces, hlen⟩ other hother
        rw [List.range'_succ] at hplaces
        have hsame : ((rest.zipIdx (n + 1)).filter fun cue => cue.1.raw.isNone).length =
            (rest.zipIdx (n + 1)).length := by
          rw [List.length_zipIdx]
          have hfirst : n = m := (List.cons.inj hplaces).1
          rw [hfirst] at hlen ⊢
          exact Nat.succ.inj (Nat.add_left_cancel hlen)
        obtain ⟨i, hi, rfl⟩ := List.mem_iff_getElem.mp hother
        exact List.length_filter_eq_length_iff.mp hsame (rest[i], n + 1 + i)
          (List.mk_add_mem_zipIdx_iff_getElem?.mpr (List.getElem?_eq_getElem hi))

end Raw

section Closing

variable {lim : Limits} {part : List Placed} {n k : ℕ}

theorem closeAt_eq (hk : lim.contextLinesK = k) (h : part.length ≤ n) :
    lim.closeAt part n = ⟨part.map Prod.fst, windowBefore lim.allLines (n - part.length) k,
      windowAfter lim.allLines n k, none⟩ := by
  have hfirst : ((n : ℤ) - part.length) = ((n - part.length : ℕ) : ℤ) := by omega
  have hstart : max 0 (((n - part.length : ℕ) : ℤ) - k) = ((n - part.length - k : ℕ) : ℤ) := by
    omega
  have hend : min (lim.allLines.length : ℤ) (n + k) = (min (n + k) lim.allLines.length : ℕ) := by
    omega
  have hafter : windowAfter lim.allLines n k = (lim.allLines.take (n + k)).drop n := by
    rw [windowAfter, List.drop_take, Nat.add_sub_cancel_left]
  rw [Limits.closeAt, makeBatch, hk, List.length_map, hfirst, hstart, hend, slice_of_nonneg,
    slice_of_nonneg, ← List.take_eq_take_min, hafter, windowBefore]

theorem windowRight_closeAt (hk : lim.contextLinesK = k) (h : part.length ≤ n)
    (hb : Bounded lim.allLines.length part n) :
    WindowRight lim.allLines k part (lim.closeAt part n) ↔
      windowBefore lim.allLines (n - part.length) k = windowBefore lim.allLines (startOf part) k ∧
        windowAfter lim.allLines n k = windowAfter lim.allLines (endOf part) k := by
  rw [closeAt_eq hk h]
  refine ⟨fun hw => ⟨hw.before, hw.after⟩, fun ⟨hbefore, hafter⟩ => ⟨rfl, hbefore, hafter, ?_⟩⟩
  intro cue hcue
  have hmem := List.mem_map_of_mem (f := Prod.snd) hcue
  exact ⟨hb.startOf_le hmem, hb.lt_endOf hmem⟩

end Closing

section Documents

variable {lim : Limits} {parts : List (List Placed)} {k : ℕ}

theorem sentPlaces_ascending (lines : List SubLine) :
    ((sentPlaces lines).map Prod.snd).Pairwise (· < ·) :=
  Sorting.pairwise_places List.filter_sublist

theorem sentPlaces_lt (lines : List SubLine) :
    ∀ i ∈ (sentPlaces lines).map Prod.snd, i < lines.length := by
  intro i hi
  obtain ⟨cue, hcue, rfl⟩ := List.mem_map.mp hi
  exact List.snd_lt_of_mem_zipIdx (List.mem_of_mem_filter hcue)

theorem forall₂_cues {parts : List (List Placed)} {batches : List Batch} {lines : List SubLine}
    {k : ℕ} (h : List.Forall₂ (WindowRight lines k) parts batches) :
    batches.map Batch.cues = parts.map fun part => part.map Prod.fst := by
  induction h with
  | nil => rfl
  | cons hright _ ih => rw [List.map_cons, List.map_cons, hright.cues, ih]

theorem windowsRight_iff (hflatten : parts.flatten = sentPlaces lim.allLines) :
    WindowsRight lim.allLines k (lim.batchesOf parts) ↔
      EachNext (fun part n => WindowRight lim.allLines k part (lim.closeAt part n))
        lim.allLines.length parts := by
  rw [← forall₂_batchesOf]
  refine ⟨fun ⟨parts', hflatten', hright⟩ => ?_, fun hright => ⟨parts, hflatten, hright⟩⟩
  -- the batches tell how the document was cut
  have hcues := forall₂_cues hright
  rw [map_cues_batchesOf] at hcues
  have hsame : parts' = parts := by
    refine List.eq_iff_flatten_eq.mpr ⟨hflatten'.trans hflatten.symm, ?_⟩
    have hlength := congrArg (List.map List.length) hcues
    simpa [List.map_map, Function.comp_def] using hlength.symm
  rwa [hsame] at hright

theorem eachNext_windowRight (hk : lim.contextLinesK = k)
    (hb : EachNext (Bounded lim.allLines.length) lim.allLines.length parts)
    (h : k = 0 ∨ EachNext Contiguous lim.allLines.length parts) :
    EachNext (fun part n => WindowRight lim.allLines k part (lim.closeAt part n))
      lim.allLines.length parts := by
  rcases h with rfl | hcontiguous
  · refine hb.mono fun part n hb => (windowRight_closeAt hk hb.length_le hb).mpr ?_
    simp only [windowBefore_zero, windowAfter_zero, and_self]
  · refine (hb.and hcontiguous).mono fun part n ⟨hb, hstart, hend⟩ => ?_
    refine (windowRight_closeAt hk hb.length_le hb).mpr ?_
    rw [hend, ← hstart, Nat.add_sub_cancel]
    exact ⟨rfl, rfl⟩

theorem contiguous_of_windowRight (hk : lim.contextLinesK = k) (hpos : 0 < k)
    (hn : lim.allLines.Nodup)
    (hb : EachNext (Bounded lim.allLines.length) lim.allLines.length parts)
    (h : EachNext (fun part n => WindowRight lim.allLines k part (lim.closeAt part n))
      lim.allLines.length parts) : EachNext Contiguous lim.allLines.length parts := by
  refine (hb.and h).mono fun part n ⟨hb, hright⟩ => ?_
  obtain ⟨hbefore, hafter⟩ := (windowRight_closeAt hk hb.length_le hb).mp hright
  obtain ⟨i, hi, hend⟩ := exists_endOf hb.nonempty
  have hlast := hb.below i hi
  have hfirst := hb.below _ (startOf_mem hb.nonempty)
  have hinside := hb.inside
  have hn' := eq_of_windowAfter hn hpos hinside (by omega) hafter
  have hs := eq_of_windowBefore hn hpos (by omega) (by omega) hbefore
  have := hb.length_le
  exact ⟨by omega, hn'.symm⟩

theorem eachNext_bounded_of_packed (hflatten : parts.flatten = sentPlaces lim.allLines)
    (hpacked : lim.Packed parts) :
    EachNext (Bounded lim.allLines.length) lim.allLines.length parts := by
  refine eachNext_bounded (fun part hpart => (hpacked.fits part hpart).nonempty) ?_ ?_
  · rw [hflatten]
    exact sentPlaces_ascending _
  · rw [hflatten]
    exact sentPlaces_lt _

theorem rawFirst_iff_contiguous (hflatten : parts.flatten = sentPlaces lim.allLines)
    (hpacked : lim.Packed parts) :
    RawFirst lim.allLines ↔ EachNext Contiguous lim.allLines.length parts := by
  rw [@rawFirst_iff lim.allLines 0, ← sentPlaces, ← hflatten, TailSent, Nat.zero_add]
  constructor
  · intro ⟨m, hplaces, hlen⟩
    exact (eachNext_contiguous (fun part hpart => (hpacked.fits part hpart).nonempty) hplaces hlen).1
  · intro hcontiguous
    exact ⟨_, places_of_contiguous (eachNext_bounded_of_packed hflatten hpacked) hcontiguous⟩

variable {doc : SubDoc} {settings : TrezarrSettings} {maxCues : ℤ} {batches : List Batch}

/-- The windows are right where no raw cue comes after one that is sent. -/
theorem windows_right_iff (h : batchSubdoc doc settings k maxCues = .ok batches) :
    ((k = 0 ∨ RawFirst doc.lines) → WindowsRight doc.lines k batches) ∧
      (doc.lines.Nodup → WindowsRight doc.lines k batches → k = 0 ∨ RawFirst doc.lines) := by
  obtain ⟨budget, parts, -, rfl, hflatten, hpacked⟩ := batchSubdoc_parts h
  have hb := eachNext_bounded_of_packed hflatten hpacked
  have hraw := rawFirst_iff_contiguous hflatten hpacked
  refine ⟨fun hk => ?_, fun hn hright => ?_⟩
  · exact (windowsRight_iff hflatten).mpr (eachNext_windowRight rfl hb (hk.imp_right hraw.mp))
  · rcases Nat.eq_zero_or_pos k with hk | hk
    · exact Or.inl hk
    · exact Or.inr (hraw.mpr
        (contiguous_of_windowRight rfl hk hn hb ((windowsRight_iff hflatten).mp hright)))

/-- A file whose karaoke comes before all it says. -/
def karaokeFirst : SubDoc := { twoScenes with lines := twoScenes.lines.drop 1 }

theorem karaoke_first_windows :
    ((3 = 0 ∨ RawFirst karaokeFirst.lines) → WindowsRight karaokeFirst.lines 3
      [⟨karaokeFirst.lines.drop 1, karaokeFirst.lines.take 1, [], none⟩]) ∧
    (karaokeFirst.lines.Nodup → WindowsRight karaokeFirst.lines 3
      [⟨karaokeFirst.lines.drop 1, karaokeFirst.lines.take 1, [], none⟩] →
        3 = 0 ∨ RawFirst karaokeFirst.lines) :=
  @windows_right_iff 3 karaokeFirst {} 50 _ (by decide +kernel)

/-- The karaoke line after the first batch moves that batch's window onto its own cue. -/
theorem karaoke_moves_window :
    batchSubdoc twoScenes {} (3 : ℕ) 50 = .ok sceneBatches ∧
      ¬ WindowsRight twoScenes.lines 3 sceneBatches := by
  refine ⟨by decide +kernel, fun ⟨parts, hflatten, hright⟩ => ?_⟩
  obtain ⟨part, rest, hfirst, -, rfl⟩ := List.forall₂_cons_right_iff.mp hright
  obtain ⟨cue, hcue, hone⟩ := List.map_eq_singleton_iff.mp hfirst.cues.symm
  subst hcue
  have hplace : cue = (twoScenes.lines.head (by decide), 0) := (List.cons.inj hflatten).1
  have hbefore := hfirst.before
  rw [hplace] at hbefore
  revert hbefore
  decide

end Documents

end Trezarr
