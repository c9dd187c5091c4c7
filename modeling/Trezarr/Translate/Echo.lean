import Trezarr.Lib.RegexAnchored
import Trezarr.Subtitles.Srt
import Trezarr.Translate.Batch
import Trezarr.Translate.BreakMarks
import Trezarr.Translate.Markers
import Trezarr.Translate.PromptFraming

/-! A reply that repeats the numbered lines of its prompt. -/
namespace Trezarr
open Text Regex Regex.Pattern Fallible

/-- Neither end of the text is white space. -/
structure Solid (w : Str) : Prop where
  head : ∃ c rest, w = c :: rest ∧ isSpace c = false
  last : ∃ c front, w = front ++ [c] ∧ isSpace c = false

section Trimming

variable {s w a t : Str} {f : Found} {fs : List Found} {n : ℕ}

theorem Solid.lstrip_append (h : Solid w) (a t : Str) :
    lstrip (a ++ (w ++ t)) = lstrip a ++ (w ++ t) := by
  obtain ⟨c, rest, rfl, hc⟩ := h.head
  have hstay : (c :: rest ++ t).dropWhile isSpace = c :: rest ++ t := by simp [hc]
  rw [lstrip, List.dropWhile_append, hstay]
  split
  next hnil => rw [lstrip, List.isEmpty_iff.mp hnil, List.nil_append]
  next => rfl

theorem Solid.rstrip_append (h : Solid w) (a t : Str) :
    rstrip (a ++ (w ++ t)) = a ++ (w ++ rstrip t) := by
  obtain ⟨c, front, rfl, hc⟩ := h.last
  have hstay : (c :: (front.reverse ++ a.reverse)).dropWhile isSpace =
      c :: (front.reverse ++ a.reverse) := by simp [hc]
  simp only [rstrip, List.rdropWhile, List.reverse_append, List.reverse_cons, List.nil_append,
    List.append_assoc, List.cons_append, List.dropWhile_append, hstay]
  split
  next hnil => simp [List.isEmpty_iff.mp hnil]
  next => simp

theorem rstrip_lstrip_append (h : Solid w) (a t : Str) :
    strip (a ++ (w ++ t)) = lstrip a ++ (w ++ rstrip t) := by
  rw [strip, h.lstrip_append, h.rstrip_append]

/-- The text between tags, with anything in their places. -/
def filled (fill : ℕ → Found → Str) (rest : Str) : ℕ → List Found → Str
  | _, [] => rest
  | n, f :: fs => f.skipped ++ (fill n f ++ filled fill rest (n + 1) fs)

theorem withKeys_eq_filled (rest : Str) : ∀ n, withKeys rest n fs =
    filled (fun n _ => sentinelKey n) rest n fs := by
  induction fs with
  | nil => exact fun n => rfl
  | cons f fs ih =>
    intro n
    rw [withKeys, filled, ih, List.append_assoc]

theorem withTags_eq_filled (rest : Str) : ∀ n, withTags rest fs =
    filled (fun _ f => f.text) rest n fs := by
  induction fs with
  | nil => exact fun n => rfl
  | cons f fs ih =>
    intro n
    rw [withTags, filled, ih (n + 1), List.append_assoc]

/-- White space goes before the first tag and after the last one. -/
def trimmed : List Found → List Found
  | [] => []
  | f :: fs => { f with skipped := lstrip f.skipped } :: fs

theorem rstrip_filled {fill : ℕ → Found → Str} (hfill : ∀ n, ∀ f ∈ fs, Solid (fill n f))
    (rest : Str) : ∀ n, rstrip (filled fill rest n fs) = filled fill (rstrip rest) n fs := by
  induction fs with
  | nil => exact fun n => rfl
  | cons f fs ih =>
    intro n
    rw [filled, (hfill n f List.mem_cons_self).rstrip_append,
      ih (fun n g hg => hfill n g (List.mem_cons_of_mem f hg)), filled]

theorem strip_filled {fill : ℕ → Found → Str} (hfill : ∀ n, ∀ g ∈ f :: fs, Solid (fill n g))
    (hsame : ∀ n g, fill n { g with skipped := lstrip g.skipped } = fill n g) (rest : Str) (n : ℕ) :
    strip (filled fill rest n (f :: fs)) = filled fill (rstrip rest) n (trimmed (f :: fs)) := by
  rw [filled, rstrip_lstrip_append (hfill n f List.mem_cons_self),
    rstrip_filled (fun n g hg => hfill n g (List.mem_cons_of_mem f hg)), trimmed, filled, hsame]

theorem solid_sentinelKey (n : ℕ) : Solid (sentinelKey n) where
  head := ⟨'<', _, rfl, by decide⟩
  last := ⟨'>', "<<T" ++ natStr n ++ ['>'], by simp [sentinelKey], by decide⟩

theorem solid_tag {r : Str} (h : TagAt (w ++ r) r) : Solid w := by
  have hangle : isSpace '<' = false ∧ isSpace '>' = false := by decide
  have hbrace : isSpace '\x7b' = false ∧ isSpace '\x7d' = false := by decide
  have hslash : isSpace '\\' = false ∧ isSpace 'N' = false ∧ isSpace 'n' = false ∧
      isSpace 'h' = false := by decide
  rcases h with ⟨x, -, -, heq⟩ | ⟨x, -, -, heq⟩ | ⟨c, hc, heq⟩
  · have hw : w = '<' :: x ++ ['>'] := List.append_cancel_right (heq.trans (by simp))
    exact ⟨⟨'<', x ++ ['>'], hw, hangle.1⟩, ⟨'>', '<' :: x, hw, hangle.2⟩⟩
  · have hw : w = '\x7b' :: '\\' :: x ++ ['\x7d'] := List.append_cancel_right (heq.trans (by simp))
    exact ⟨⟨'\x7b', '\\' :: x ++ ['\x7d'], hw, hbrace.1⟩,
      ⟨'\x7d', '\x7b' :: '\\' :: x, hw, hbrace.2⟩⟩
  · have hw : w = ['\\', c] := List.append_cancel_right (heq.trans (by simp))
    have hend : isSpace c = false := by
      have hends : c = 'N' ∨ c = 'n' ∨ c = 'h' := by simpa using hc
      rcases hends with rfl | rfl | rfl
      · exact hslash.2.1
      · exact hslash.2.2.1
      · exact hslash.2.2.2
    exact ⟨⟨'\\', [c], hw, hslash.1⟩, ⟨c, ['\\'], hw, hend⟩⟩

theorem solid_of_finds (h : Finds tagRe s fs) : ∀ f ∈ fs, Solid f.text :=
  fun _ hf => solid_tag (mem_rests_tagRe.mp (h.mem_rests hf).2)

theorem sentinelsFrom_trimmed (n : ℕ) (fs : List Found) :
    sentinelsFrom n (trimmed fs) = sentinelsFrom n fs := by
  cases fs <;> rfl

/-- A stripped text with and without its tags, by the same text between them. -/
theorem strip_extractSentinels (s : Str) : ∃ rest fs, strip s = withTags rest fs ∧
    strip (extractSentinels s).1 = withKeys rest 0 fs ∧
    (extractSentinels s).2 = sentinelsFrom 0 fs := by
  have hfinds := finds_findIter tagRe_looksAhead tagRe_consumes s
  have htext := withTags_of_finds hfinds
  have hsolid := solid_of_finds hfinds
  unfold extractSentinels
  dsimp only
  cases htags : findIter tagRe s with
  | nil => exact ⟨strip s, [], rfl, rfl, rfl⟩
  | cons f fs =>
    rw [htags] at htext hsolid
    refine ⟨rstrip (lastRest s (f :: fs)), trimmed (f :: fs), ?_, ?_, ?_⟩
    · rw [withTags_eq_filled _ 0, ← strip_filled (fun _ g hg => hsolid g hg) fun _ _ => rfl,
        ← withTags_eq_filled, htext]
    · rw [withKeys_eq_filled, withKeys_eq_filled]
      exact strip_filled (fun n _ _ => solid_sentinelKey n) (fun _ _ => rfl) _ 0
    · exact (sentinelsFrom_trimmed 0 (f :: fs)).symm

theorem strip_isInfix (s : Str) : strip s <:+: s :=
  (List.rdropWhile_prefix _ _).isInfix.trans (List.dropWhile_suffix _).isInfix

theorem noToken_strip (h : found sentinelRe s = false) : NoToken (strip s) :=
  (noToken_of_found h).of_isInfix (strip_isInfix s)

end Trimming

/-- Line feeds are the only line breaks of the text. -/
def Unbroken (s : Str) : Prop := ∀ c ∈ s, isLineBreak c = true → c = '\n'

section Lines

variable {text : Str} {texts : List Str} {st : ParseState} {multiline : Option (List ℕ)} {i : ℕ}

theorem natStr_length_le_iff {n k : ℕ} (h : 0 < k) : (natStr n).length ≤ k ↔ n < 10 ^ k := by
  rw [← Nat.length_repr_le_iff h]
  rfl

theorem solid_strip (h : strip text ≠ []) : Solid (strip text) where
  head := by
    obtain ⟨c, rest, hs⟩ := List.exists_cons_of_ne_nil h
    exact ⟨c, rest, hs, head_strip (s := text) (by rw [hs]; rfl)⟩
  last := by
    obtain ⟨front, c, hs⟩ := List.eq_nil_or_concat (strip text) |>.resolve_left h
    rw [List.concat_eq_append] at hs
    exact ⟨c, front, hs, last_strip (s := text) (by simp [hs])⟩

theorem Solid.strip_eq {w : Str} (h : Solid w) : strip w = w := by
  have hstrip := rstrip_lstrip_append h [] []
  simpa [lstrip, rstrip] using hstrip

theorem markBreak_of_not_isSpace {c : Char} (hc : isSpace c = false) : markBreak c = [c] := by
  refine markBreak_of_ne ?_
  rintro rfl
  exact absurd hc (by decide)

theorem solid_markBreaks (h : strip text ≠ []) : Solid (markBreaks text) := by
  obtain ⟨⟨c, rest, hhead, hc⟩, d, front, hlast, hd⟩ := solid_strip h
  refine ⟨⟨c, rest.flatMap markBreak, ?_, hc⟩, d, front.flatMap markBreak, ?_, hd⟩
  · rw [markBreaks, hhead, List.flatMap_cons, markBreak_of_not_isSpace hc, List.singleton_append]
  · rw [markBreaks, hlast, List.flatMap_append, List.flatMap_singleton,
      markBreak_of_not_isSpace hd]

theorem cueLine_none (i : ℕ) (text : Str) :
    cueLine none i text = '[' :: (natStr i ++ ']' :: ' ' :: markBreaks text) := by
  simp [cueLine, pronounHint]

theorem marker_cueLine (hne : strip text ≠ []) (i : ℕ) :
    ∃ m, marker (cueLine none i text) = some m ∧ m.group 1 = natStr i ∧
      m.group 2 = markBreaks text := by
  obtain ⟨⟨c, rest, hhead, hc⟩, d, front, hlast, hd⟩ := solid_markBreaks hne
  have hline : strip (cueLine none i text) = cueLine none i text := by
    refine Solid.strip_eq ⟨⟨'[', _, cueLine_none i text, by decide⟩, d,
      '[' :: (natStr i ++ ']' :: ' ' :: front), ?_, hd⟩
    rw [cueLine_none, hlast]
    simp
  obtain ⟨m, hm, hnumber, hbody⟩ := @matchStart_numberedLineRe (natStr i) (markBreaks text)
    (natStr_ne_nil i) fun _ => isDigit_natStr
  have hdrop : (markBreaks text).dropWhile isSpace = markBreaks text := by
    rw [hhead, List.dropWhile_cons_of_neg (by simp [hc])]
  have hwhole : (markBreaks text).takeWhile (· ≠ '\n') = markBreaks text := by
    rw [List.takeWhile_eq_self_iff]
    intro x hx
    exact decide_eq_true fun heq => not_mem_marked (strip text) (heq ▸ hx)
  refine ⟨m, ?_, hnumber, by rw [hbody, hdrop, hwhole]⟩
  rw [marker, hline, cueLine_none, hm]

/-- The line of a cue is read as the cue's own text with its breaks marked. -/
theorem readLine_cueLine (multiline : Option (List ℕ)) (hne : strip text ≠ [])
    (hshort : (natStr i).length ≤ maxStrDigits)
    (hnew : i ∉ st.parsed.keys) : readLine multiline st (cueLine none i text) =
      .ok { parsed := st.parsed.set i (markBreaks text), current := some i } := by
  obtain ⟨m, hm, hnumber, hbody⟩ := marker_cueLine hne i
  rw [marker] at hm
  have hint : pyInt (m.group 1) = .ok i := by
    have hvalue := valueOf_natStr i
    rw [valueOf] at hvalue
    rw [hnumber, pyInt, if_neg (Nat.not_lt.mpr hshort), hvalue]
  rw [readLine, hm]
  simp only [hint, ok_bind, hnew, if_false, hbody, (solid_markBreaks hne).strip_eq, pure_eq_ok]

/-- One line after the other, each number once. -/
theorem foldlM_cueLines (multiline : Option (List ℕ)) (hne : ∀ t ∈ texts, strip t ≠ []) :
    ∀ {k : ℕ} (st : ParseState), (∀ j ∈ st.parsed.keys, j < k) →
    k + texts.length ≤ 10 ^ maxStrDigits →
    ∃ st', ((texts.zipIdx k).map fun (t, i) => cueLine none i t).foldlM (readLine multiline) st =
        .ok st' ∧ (∀ j ∈ st'.parsed.keys, j ∈ st.parsed.keys ∨ (k ≤ j ∧ j < k + texts.length)) ∧
      (∀ j < k, st'.parsed.get? j = st.parsed.get? j) ∧
      ∀ (i : ℕ) (t : Str), texts[i]? = some t → st'.parsed.get? (k + i) = some (markBreaks t) := by
  induction texts with
  | nil => exact fun {k} st _ _ => ⟨st, rfl, fun j hj => .inl hj, fun _ _ => rfl, nofun⟩
  | cons t texts ih =>
    intro k st hkeys hk
    rw [List.length_cons] at hk
    have hshort : (natStr k).length ≤ maxStrDigits :=
      (natStr_length_le_iff (by decide)).mpr (by omega)
    have hread := readLine_cueLine multiline (hne t List.mem_cons_self) hshort
      fun hmem => absurd (hkeys k hmem) (lt_irrefl k)
    obtain ⟨st', hfold, hkeys', hbefore, htexts⟩ :=
      ih (fun t' ht' => hne t' (List.mem_cons_of_mem t ht')) (k := k + 1)
        { parsed := st.parsed.set k (markBreaks t), current := some k }
        (fun j hj => by
          rcases mem_keys_set.mp hj with rfl | hj
          · exact Nat.lt_succ_self j
          · exact Nat.lt_succ_of_lt (hkeys j hj)) (by omega)
    refine ⟨st', ?_, fun j hj => ?_, fun j hj => ?_, fun i t' ht' => ?_⟩
    · rw [List.zipIdx_cons, List.map_cons, List.foldlM_cons, hread, ok_bind]
      exact hfold
    · rcases hkeys' j hj with hj | hj
      · rcases mem_keys_set.mp hj with rfl | hj
        · exact .inr ⟨le_rfl, by simp⟩
        · exact .inl hj
      · exact .inr ⟨by omega, by rw [List.length_cons]; omega⟩
    · rw [hbefore j (by omega)]
      exact Dict.get?_set_of_ne (by omega)
    · cases i with
      | zero =>
        cases ht'
        rw [Nat.add_zero, hbefore k (Nat.lt_succ_self k)]
        exact Dict.get?_set_self
      | succ i =>
        have hi := htexts i t' (by simpa using ht')
        rwa [show k + 1 + i = k + (i + 1) by omega] at hi

theorem splitlines_cueLines (h : ∀ t ∈ texts, Unbroken (strip t)) :
    splitlines (join "\n" (cueLines none texts)) = cueLines none texts := by
  refine splitlines_join fun line hline => ?_
  obtain ⟨⟨t, i⟩, ht, rfl⟩ := List.mem_map.mp hline
  dsimp only
  rw [cueLine_none]
  refine ⟨List.cons_ne_nil _ _, fun c hc => ?_⟩
  have hpoint : isLineBreak '[' = false ∧ isLineBreak ']' = false ∧ isLineBreak ' ' = false := by
    decide
  have hmarkBreak : ∀ x ∈ ['<', '<', 'B', 'R', '>', '>'], isLineBreak x = false :=
    oneLine_iff.mp (by decide)
  simp only [List.mem_cons, List.mem_append] at hc
  rcases hc with rfl | hc | rfl | rfl | hc
  · exact hpoint.1
  · exact oneLine_iff.mp (oneLine_natStr i) c hc
  · exact hpoint.2.1
  · exact hpoint.2.2
  · obtain ⟨d, hd, hmark⟩ := List.mem_flatMap.mp hc
    by_cases hbreak : d = '\n'
    · rw [hbreak, markBreak_newline] at hmark
      exact hmarkBreak c hmark
    · rw [markBreak_of_ne hbreak, List.mem_singleton] at hmark
      subst hmark
      have htext := h t (List.fst_mem_of_mem_zipIdx ht) c hd
      cases hc : isLineBreak c with
      | false => rfl
      | true => exact absurd (htext hc) hbreak

/-- What is left of the reply once its lines are read. -/
theorem parse_cueLines (multiline : Option (List ℕ)) (hne : ∀ t ∈ texts, strip t ≠ [])
    (hun : ∀ t ∈ texts, Unbroken (strip t)) (hlength : texts.length < 10 ^ maxStrDigits) :
    ∃ parsed : Dict ℕ Str,
      parseNumberedResponse (join "\n" (cueLines none texts)) texts.length multiline =
        (List.range' 1 texts.length).mapM (finishLine parsed texts.length) ∧
      ∀ (i : ℕ) (t : Str), texts[i]? = some t → parsed.get? (1 + i) = some (markBreaks t) := by
  obtain ⟨st, hfold, hkeys, -, htexts⟩ := foldlM_cueLines multiline hne (k := 1) {}
    (fun j hj => absurd hj (by simp [Dict.keys, Dict.empty])) (by omega)
  refine ⟨st.parsed, ?_, htexts⟩
  have hextra : st.parsed.keys.filter (fun n => n < 1 ∨ texts.length < n) = [] := by
    rw [List.filter_eq_nil_iff]
    intro j hj
    rcases hkeys j hj with hj | hj
    · exact absurd hj (by simp [Dict.keys, Dict.empty])
    · simp only [decide_eq_true_eq]
      omega
  rw [parseNumberedResponse, splitlines_cueLines hun, cueLines, hfold, ok_bind]
  simp only [hextra, ne_eq, not_true_eq_false, if_false]

end Lines

/-- The reader takes nothing from the text as an echo of the prompt. -/
structure EchoFree (text : Str) : Prop where
  hint : found leakedHintRe text = false
  vnHint : found leakedVnHintRe text = false
  directive : found leakedDirectiveRe text = false

section Echoes

variable {text : Str}

theorem litI_looksAhead (word : Str) : (litI word).LooksAhead := by
  unfold litI seqs
  induction word with
  | nil => trivial
  | cons c word ih => exact ⟨trivial, ih⟩

theorem leakedHintRe_anchored : Anchored leakedHintRe :=
  ⟨_, rfl, by simp [LooksAhead, litI_looksAhead, char, space, plus, noneOf],
    consumes_seq_right _ (consumes_seq _ (consumes_set _))⟩

theorem leakedVnHintRe_anchored : Anchored leakedVnHintRe :=
  ⟨_, rfl, by simp [seqs, LooksAhead, litI_looksAhead, char, space, plus, noneOf, oneOf, vnLabelRe],
    consumes_seq_right _ (consumes_seq _ (consumes_alt (consumes_seq _ (consumes_set _))
      (consumes_seq _ (consumes_set _))))⟩

theorem leakedDirectiveRe_anchored : Anchored leakedDirectiveRe :=
  ⟨_, rfl, by simp [seqs, LooksAhead, litI_looksAhead, char, space, plus, noneOf, opt,
      correctionTagRe],
    consumes_seq_right _ (consumes_seq _ (consumes_seq _ (consumes_set _)))⟩

theorem stripEchoes_suffix (text : Str) : stripEchoes text <:+ text :=
  (leakedDirectiveRe_anchored.sub_suffix.trans leakedVnHintRe_anchored.sub_suffix).trans
    leakedHintRe_anchored.sub_suffix

theorem stripEchoes_eq_self : stripEchoes text = text ↔ EchoFree text := by
  constructor
  · intro h
    -- each of the three leaves an end of what it is given, and the last end is the whole text
    have hhint : sub leakedHintRe (fun _ => []) text = text := by
      refine leakedHintRe_anchored.sub_suffix.eq_of_length_le ?_
      have hrest : stripEchoes text <:+ sub leakedHintRe (fun _ => []) text :=
        leakedDirectiveRe_anchored.sub_suffix.trans leakedVnHintRe_anchored.sub_suffix
      exact (congrArg List.length h).symm.le.trans hrest.length_le
    have hvn : sub leakedVnHintRe (fun _ => []) text = text := by
      refine leakedVnHintRe_anchored.sub_suffix.eq_of_length_le ?_
      have hlength := congrArg List.length h
      rw [stripEchoes, hhint] at hlength
      exact hlength.symm.le.trans leakedDirectiveRe_anchored.sub_suffix.length_le
    have hdirective : sub leakedDirectiveRe (fun _ => []) text = text := by
      rw [stripEchoes, hhint, hvn] at h
      exact h
    exact ⟨leakedHintRe_anchored.sub_eq_self.mp hhint, leakedVnHintRe_anchored.sub_eq_self.mp hvn,
      leakedDirectiveRe_anchored.sub_eq_self.mp hdirective⟩
  · rintro ⟨hhint, hvn, hdirective⟩
    rw [stripEchoes, leakedHintRe_anchored.sub_eq_self.mpr hhint,
      leakedVnHintRe_anchored.sub_eq_self.mpr hvn]
    exact leakedDirectiveRe_anchored.sub_eq_self.mpr hdirective

end Echoes

section Restoring

variable {a b u key new text : Str} {sentinels : SentinelMap}

theorem replaceFirst_split (new : Str) (h : key <:+: text) : ∃ a b, text = a ++ (key ++ b) ∧
    replaceFirst key new text = a ++ (new ++ b) := by
  induction text with
  | nil =>
    cases List.infix_nil.mp h
    exact ⟨[], [], rfl, by simp [replaceFirst]⟩
  | cons c s ih =>
    rw [replaceFirst]
    split
    next hprefix =>
      obtain ⟨b, hb⟩ := hprefix
      refine ⟨[], b, hb.symm, ?_⟩
      rw [← hb, List.drop_left, List.nil_append]
    next hno =>
      have hin : key <:+: s := (List.infix_cons_iff.mp h).resolve_left hno
      obtain ⟨a, b, hs, hreplaced⟩ := ih hin
      exact ⟨c :: a, b, by rw [hs]; rfl, by rw [hreplaced]; rfl⟩

theorem restoreKeys_cons (h : restoreKeys text ((key, new) :: sentinels) = (u, true)) :
    ∃ a b, text = a ++ (key ++ b) ∧ restoreKeys (a ++ (new ++ b)) sentinels = (u, true) := by
  rw [restoreKeys] at h
  split at h
  next hin =>
    obtain ⟨a, b, htext, hreplaced⟩ := replaceFirst_split new (of_decide_eq_true hin)
    rw [hreplaced] at h
    exact ⟨a, b, htext, h⟩
  next => cases h

/-- Restoring takes the keys away and puts the tags in. -/
theorem restoreKeys_perm : ∀ {text : Str}, restoreKeys text sentinels = (u, true) →
    (u ++ sentinels.flatMap Prod.fst).Perm (text ++ sentinels.flatMap Prod.snd) := by
  induction sentinels with
  | nil =>
    intro text h
    cases h
    exact .refl _
  | cons pair sentinels ih =>
    intro text h
    obtain ⟨a, b, rfl, hrest⟩ := restoreKeys_cons h
    refine List.perm_iff_count.mpr fun c => ?_
    have hcount := (ih hrest).count_eq c
    simp only [List.flatMap_cons, List.count_append] at hcount ⊢
    omega

/-- Two texts that come back as the same one have the same characters. -/
theorem perm_of_restoreKeys (ha : restoreKeys a sentinels = (u, true))
    (hb : restoreKeys b sentinels = (u, true)) : a.Perm b :=
  (List.perm_append_right_iff _).mp ((restoreKeys_perm ha).symm.trans (restoreKeys_perm hb))

theorem mem_stripOrphans {c : Char} {orphans : List Str} (h : c ∈ stripOrphans text orphans) :
    c ∈ text ∨ c = ' ' := by
  unfold stripOrphans at h
  split at h
  · exact .inl h
  · rcases mem_sub (mem_of_mem_strip h) with h | h
    · exact .inl h
    · exact .inr (by simpa using h)

end Restoring

section Reading

variable {texts out : List Str} {maps : List SentinelMap} {response text : Str} {n : ℕ}
  {multiline : Option (List ℕ)} {st st' : ParseState} {line : Str}

theorem unbroken_strip (h : Unbroken text) : Unbroken (strip text) :=
  fun c hc => h c (mem_of_mem_strip hc)

theorem unbroken_sub {p : Pattern} {x : Str} (hx : Unbroken x) (h : Unbroken text) :
    Unbroken (sub p (fun _ => x) text) := by
  intro c hc
  rcases mem_sub hc with hc | hc
  · exact h c hc
  · exact hx c hc

theorem unbroken_readLine (hst : ∀ k t, st.parsed.get? k = some t → Unbroken t)
    (hline : Unbroken line) (h : readLine multiline st line = .ok st') :
    ∀ k t, st'.parsed.get? k = some t → Unbroken t := by
  unfold readLine at h
  dsimp only at h
  split at h
  next m hm =>
    obtain ⟨number, -, h⟩ := bind_ok h
    split at h
    · cases h
    · cases h
      intro k t ht
      rw [Dict.get?_set] at ht
      split at ht
      · cases ht
        have hgroup := (matchAt_parts hm).2.2 2
        exact unbroken_strip fun c hc => unbroken_strip hline c (hgroup c hc)
      · exact hst k t ht
  next =>
    cases h
    unfold continueLine
    split
    · exact hst
    · next current _ =>
      split
      · intro k t ht
        dsimp only at ht
        rw [Dict.get?_set] at ht
        split at ht
        · cases ht
          have hold : Unbroken ((st.parsed.get? current).getD []) := by
            cases hget : st.parsed.get? current with
            | none => exact fun c hc => absurd hc List.not_mem_nil
            | some t => exact hst current t hget
          split
          · exact unbroken_strip hline
          · intro c hc hbreak
            rw [List.append_assoc, List.mem_append, List.mem_append] at hc
            rcases hc with hc | hc | hc
            · exact hold c hc hbreak
            · simpa using hc
            · exact unbroken_strip hline c hc hbreak
        · exact hst k t ht
      · exact hst

theorem unbroken_foldlM (lines : List Str) (hlines : ∀ line ∈ lines, Unbroken line) :
    ∀ {st : ParseState}, (∀ k t, st.parsed.get? k = some t → Unbroken t) →
      lines.foldlM (readLine multiline) st = .ok st' →
      ∀ k t, st'.parsed.get? k = some t → Unbroken t := by
  induction lines with
  | nil =>
    intro st hst h
    cases h
    exact hst
  | cons line lines ih =>
    intro st hst h
    rw [List.foldlM_cons] at h
    obtain ⟨st'', hread, h⟩ := bind_ok h
    exact ih (fun l hl => hlines l (List.mem_cons_of_mem line hl))
      (unbroken_readLine hst (hlines line List.mem_cons_self) hread) h

/-- What is read has no line breaks but those that were restored. -/
theorem unbroken_parse (h : parseNumberedResponse response n multiline = .ok texts) :
    ∀ t ∈ texts, Unbroken t := by
  obtain ⟨st, hfold, h⟩ := bind_ok h
  dsimp only at h
  split at h
  · cases h
  · intro t ht
    obtain ⟨k, -, hk⟩ := mem_of_mapM h ht
    obtain ⟨-, raw, hraw, rfl⟩ := finishLine_ok hk
    have hlines : ∀ line ∈ splitlines response, Unbroken line := by
      intro line hline c hc hbreak
      rw [not_isLineBreak_of_mem_splitlines hline c hc] at hbreak
      cases hbreak
    have hempty : ∀ k t, ({} : ParseState).parsed.get? k = some t → Unbroken t := nofun
    have hraw' := unbroken_foldlM _ hlines hempty hfold k raw hraw
    have hnewline : Unbroken "\n" := fun c hc _ => by simpa using hc
    have hrestored : Unbroken (restoreBreaks raw) :=
      unbroken_sub hnewline (unbroken_sub hnewline (unbroken_sub hnewline hraw'))
    exact fun c hc => hrestored c ((stripEchoes_suffix _).mem hc)

theorem length_parse (h : parseNumberedResponse response n multiline = .ok texts) :
    texts.length = n := by
  obtain ⟨st, -, h⟩ := bind_ok h
  dsimp only at h
  split at h
  · cases h
  · rw [← (mapM_ok h).length_eq, List.length_range']

/-- Every number of the lines was short enough to be read. -/
theorem length_lt_of_parse (hne : ∀ t ∈ texts, strip t ≠ [])
    (hun : ∀ t ∈ texts, Unbroken (strip t))
    (h : parseNumberedResponse (join "\n" (cueLines none texts)) n multiline = .ok out) :
    texts.length < 10 ^ maxStrDigits := by
  rcases List.eq_nil_or_concat texts with rfl | ⟨front, t, rfl⟩
  · exact Nat.pow_pos (by decide)
  · rw [List.concat_eq_append] at hne hun h ⊢
    obtain ⟨st, hfold, -⟩ := bind_ok h
    have hrun := (@reads_nil multiline).run (splitlines (join "\n" (cueLines none (front ++ [t]))))
    rw [hfold, splitlines_cueLines hun] at hrun
    have hmem : cueLine none (front ++ [t]).length t ∈ cueLines none (front ++ [t]) :=
      List.mem_map.mpr ⟨(t, (front ++ [t]).length), by simp [List.zipIdx_append, Nat.add_comm], rfl⟩
    have hshort := hrun.short _ (List.mem_append_right [] hmem)
    obtain ⟨m, hm, hnumber, -⟩ := marker_cueLine (hne t (by simp)) (front ++ [t]).length
    rw [isOverlong, hm, Option.any_some, decide_eq_false_iff_not, hnumber] at hshort
    exact (natStr_length_le_iff (by decide)).mp (Nat.not_lt.mp hshort)

theorem restoreKeys_of_reinsert {u : Str} {sentinels : SentinelMap}
    (h : reinsertSentinels text sentinels = (u, true)) :
    restoreKeys (stripOrphans text (orphansOf text sentinels)) sentinels = (u, true) := by
  unfold reinsertSentinels at h
  dsimp only at h
  obtain ⟨hu, hok⟩ := Prod.ext_iff.mp h
  exact Prod.ext hu (Bool.and_eq_true_iff.mp hok).1

theorem restoreCues_getElem? : ∀ {i : ℕ} {texts : List Str} {maps : List SentinelMap}
    {out : List Str}, restoreCues i texts maps = .ok out → ∀ {j : ℕ} {text u : Str}
    {sentinels : SentinelMap}, texts[j]? = some text → maps[j]? = some sentinels →
    out[j]? = some u → reinsertSentinels text sentinels = (u, true) := by
  intro i texts
  induction texts generalizing i with
  | nil =>
    intro maps out _ j text u sentinels htext
    cases htext
  | cons first texts ih =>
    intro maps out h j text u sentinels htext hmap hout
    cases maps with
    | nil => cases hmap
    | cons map maps =>
      rw [restoreCues] at h
      obtain ⟨restored, hrestored, h⟩ := bind_ok h
      obtain ⟨rest, hrest, h⟩ := bind_ok h
      cases h
      cases j with
      | zero =>
        cases htext
        cases hmap
        cases hout
        unfold restoreCue at hrestored
        dsimp only at hrestored
        split at hrestored
        next hok =>
          cases hrestored
          exact Prod.ext rfl hok
        next => cases hrestored
      | succ j => exact ih hrest htext hmap hout

theorem restoreCues_of {α : Type} {f k : α → Str} {g : α → SentinelMap} {cues : List α}
    (h : ∀ cue ∈ cues, reinsertSentinels (f cue) (g cue) = (k cue, true)) :
    ∀ i, restoreCues i (cues.map f) (cues.map g) = .ok (cues.map k) := by
  induction cues with
  | nil => exact fun i => rfl
  | cons cue cues ih =>
    intro i
    have hrest := ih fun c hc => h c (List.mem_cons_of_mem cue hc)
    simp only [List.map_cons, restoreCues, restoreCue, h cue List.mem_cons_self, if_true, ok_bind,
      hrest (i + 1), pure_eq_ok]

end Reading

/-- The text of a cue as it is sent, its tags behind placeholders. -/
def sentText (cue : SubLine) : Str := (extractSentinels cue.text).1

/-- The numbered lines of the prompt, without hints, as the reply. -/
def echo (cues : List SubLine) : Str := join "\n" (cueLines none (cues.map sentText))

/-- The line that is sent for a cue is read back as the text that was sent. -/
structure EchoSafe (cue : SubLine) : Prop where
  unbroken : Unbroken (strip (sentText cue))
  free : EchoFree (strip (sentText cue))

section Echo

variable {cues : List SubLine} {cue : SubLine} {texts out : List Str}

theorem sentText_ne_nil (h : strip cue.text ≠ []) : strip (sentText cue) ≠ [] := by
  obtain ⟨rest, fs, htext, hsent, -⟩ := strip_extractSentinels cue.text
  intro hnil
  rw [sentText, hsent] at hnil
  cases fs with
  | nil => exact h (htext.trans hnil)
  | cons f fs => simp [withKeys, sentinelKey] at hnil

theorem found_brRe_sentText (cue : SubLine) : found brRe (strip (sentText cue)) = false := by
  rw [← Bool.not_eq_true, found_brRe_iff]
  rintro ⟨w, hw, hin⟩
  have hsent : found brRe (sentText cue) = true :=
    found_brRe_iff.mpr ⟨w, hw, hin.trans (strip_isInfix _)⟩
  rw [sentText, found_brRe_extractSentinels] at hsent
  cases hsent

theorem reinsertSentinels_sentText (h : found sentinelRe cue.text = false) :
    reinsertSentinels (strip (sentText cue)) (extractSentinels cue.text).2 =
      (strip cue.text, true) := by
  obtain ⟨rest, fs, htext, hsent, hmap⟩ := strip_extractSentinels cue.text
  rw [sentText, hsent, hmap, htext]
  exact reinsertSentinels_withKeys rest fs (htext ▸ noToken_strip h)

theorem restoreKeys_sentText (h : found sentinelRe cue.text = false) :
    restoreKeys (strip (sentText cue)) (extractSentinels cue.text).2 = (strip cue.text, true) := by
  obtain ⟨rest, fs, htext, hsent, hmap⟩ := strip_extractSentinels cue.text
  rw [sentText, hsent, hmap, htext]
  have hkeys := restoreKeys_withKeys rest fs (a := []) (n := 0) (htext ▸ noToken_strip h)
  exact hkeys

theorem finishLine_marked {parsed : Dict ℕ Str} {n k : ℕ} {t : Str}
    (hraw : parsed.get? k = some (markBreaks t)) (hbreaks : found brRe (strip t) = false) :
    finishLine parsed n k = if strip (stripEchoes (strip t)) = [] then
      .error (.batchValidation (.emptyLine k)) else .ok (stripEchoes (strip t)) := by
  rw [finishLine, hraw]
  simp only [markBreaks, restoreBreaks_marked hbreaks]

theorem finish_cueLines {parsed : Dict ℕ Str} {n : ℕ} (h : ∀ t ∈ texts, strip t ≠ [] ∧
    found brRe (strip t) = false ∧ EchoFree (strip t)) : ∀ {k : ℕ},
    (∀ (i : ℕ) (t : Str), texts[i]? = some t → parsed.get? (k + i) = some (markBreaks t)) →
    (List.range' k texts.length).mapM (finishLine parsed n) = .ok (texts.map strip) := by
  induction texts with
  | nil => exact fun {k} _ => rfl
  | cons t texts ih =>
    intro k hparsed
    obtain ⟨hne, hbreaks, hfree⟩ := h t List.mem_cons_self
    have hfirst : finishLine parsed n k = .ok (strip t) := by
      rw [finishLine_marked (k := k) (hparsed 0 t rfl) hbreaks, stripEchoes_eq_self.mpr hfree,
        strip_strip, if_neg hne]
    have hrest := ih (fun t' ht' => h t' (List.mem_cons_of_mem t ht')) (k := k + 1)
      fun i t' ht' => by
        rw [show k + 1 + i = k + (i + 1) by omega]
        exact hparsed (i + 1) t' (by simpa using ht')
    rw [List.length_cons, List.range'_succ, List.mapM_cons, hfirst, ok_bind, hrest, ok_bind]
    rfl

theorem decodeReply_echo (hcues : cues.length < 10 ^ maxStrDigits)
    (h : ∀ cue ∈ cues, strip cue.text ≠ [] ∧ found sentinelRe cue.text = false)
    (hsafe : ∀ cue ∈ cues, EchoSafe cue) :
    decodeReply cues (echo cues) = .ok (cues.map fun cue => strip cue.text) := by
  have htexts : ∀ t ∈ cues.map sentText, strip t ≠ [] ∧ found brRe (strip t) = false ∧
      EchoFree (strip t) := by
    intro t ht
    obtain ⟨cue, hcue, rfl⟩ := List.mem_map.mp ht
    exact ⟨sentText_ne_nil (h cue hcue).1, found_brRe_sentText cue, (hsafe cue hcue).free⟩
  have hunbroken : ∀ t ∈ cues.map sentText, Unbroken (strip t) := by
    intro t ht
    obtain ⟨cue, hcue, rfl⟩ := List.mem_map.mp ht
    exact (hsafe cue hcue).unbroken
  have hlength : (cues.map sentText).length = cues.length := List.length_map sentText
  obtain ⟨parsed, hparse, hplace⟩ := parse_cueLines (some (multilineIndices
    ((cues.map fun cue => extractSentinels cue.text).map Prod.fst)))
    (fun t ht => (htexts t ht).1) hunbroken (hlength ▸ hcues)
  rw [finish_cueLines htexts hplace, hlength] at hparse
  rw [decodeReply, echo, hparse, ok_bind, List.map_map, List.map_map]
  exact restoreCues_of (fun cue hcue => reinsertSentinels_sentText (h cue hcue).2) 0

theorem safe_of_decodeReply_echo
    (h : ∀ cue ∈ cues, strip cue.text ≠ [] ∧ found sentinelRe cue.text = false)
    (hdecode : decodeReply cues (echo cues) = .ok (cues.map fun cue => strip cue.text)) :
    cues.length < 10 ^ maxStrDigits ∧ ∀ cue ∈ cues, EchoSafe cue := by
  have hlength : (cues.map sentText).length = cues.length := List.length_map sentText
  obtain ⟨texts, hparse, hrestore⟩ := bind_ok hdecode
  rw [List.map_map] at hrestore
  have hback : ∀ {j : ℕ} {cue : SubLine} {text : Str}, cues[j]? = some cue →
      texts[j]? = some text → reinsertSentinels text (extractSentinels cue.text).2 =
        (strip cue.text, true) := by
    intro j cue text hcue htext
    exact restoreCues_getElem? hrestore htext (by simp [hcue]) (by simp [hcue])
  have hplace : ∀ {j : ℕ} {cue : SubLine}, cues[j]? = some cue → ∃ text, texts[j]? = some text := by
    intro j cue hcue
    have hj := (List.getElem?_eq_some_iff.mp hcue).1
    exact ⟨_, List.getElem?_eq_getElem ((length_parse hparse).symm ▸ hj)⟩
  have hperm : ∀ {j : ℕ} {cue : SubLine} {text : Str}, cues[j]? = some cue →
      texts[j]? = some text → (stripOrphans text
        (orphansOf text (extractSentinels cue.text).2)).Perm (strip (sentText cue)) := by
    intro j cue text hcue htext
    refine perm_of_restoreKeys (restoreKeys_of_reinsert (hback hcue htext)) ?_
    exact restoreKeys_sentText (h cue (List.mem_of_getElem? hcue)).2
  have hunbroken : ∀ cue ∈ cues, Unbroken (strip (sentText cue)) := by
    intro cue hmem c hc hbreak
    obtain ⟨j, hcue⟩ := List.getElem?_of_mem hmem
    obtain ⟨text, htext⟩ := hplace hcue
    rcases mem_stripOrphans ((hperm hcue htext).mem_iff.mpr hc) with hc | rfl
    · exact unbroken_parse hparse text (List.mem_of_getElem? htext) c hc hbreak
    · exact absurd hbreak (by decide)
  have htexts : ∀ t ∈ cues.map sentText, strip t ≠ [] ∧ Unbroken (strip t) := by
    intro t ht
    obtain ⟨cue, hcue, rfl⟩ := List.mem_map.mp ht
    exact ⟨sentText_ne_nil (h cue hcue).1, hunbroken cue hcue⟩
  have hshort := length_lt_of_parse (fun t ht => (htexts t ht).1) (fun t ht => (htexts t ht).2)
    hparse
  refine ⟨hlength ▸ hshort, fun cue hmem => ⟨hunbroken cue hmem, ?_⟩⟩
  obtain ⟨j, hcue⟩ := List.getElem?_of_mem hmem
  obtain ⟨text, htext⟩ := hplace hcue
  have hread : text = stripEchoes (strip (sentText cue)) := by
    obtain ⟨parsed, hlines, hmarked⟩ := parse_cueLines (some (multilineIndices
      ((cues.map fun cue => extractSentinels cue.text).map Prod.fst)))
      (fun t ht => (htexts t ht).1) (fun t ht => (htexts t ht).2) hshort
    rw [hlength] at hlines
    have hj : (List.range' 1 cues.length)[j]? = some (1 + j) := by
      rw [List.getElem?_range' (List.getElem?_eq_some_iff.mp hcue).1, Nat.one_mul]
    obtain ⟨text', htext', hfinish⟩ := mapM_getElem? (hlines.symm.trans hparse) hj
    cases htext.symm.trans htext'
    have hraw := hmarked j (sentText cue) (by simp [hcue])
    rw [finishLine_marked hraw (found_brRe_sentText cue)] at hfinish
    split at hfinish
    · cases hfinish
    · exact (Except.ok.inj hfinish).symm
  have hnone : orphansOf text (extractSentinels cue.text).2 = [] := by
    obtain ⟨rest, fs, hstripped, hsent, hmap⟩ := strip_extractSentinels cue.text
    rw [hmap]
    refine orphansOf_part rest (hstripped ▸ noToken_strip (h cue hmem).2) ?_
    rw [← hsent, hread]
    exact (stripEchoes_suffix _).isInfix
  have hsame := hperm hcue htext
  rw [hnone, stripOrphans, if_pos rfl, hread] at hsame
  exact stripEchoes_eq_self.mp ((stripEchoes_suffix _).eq_of_length_le hsame.length_eq.symm.le)

/-- A reply that repeats the prompt's lines is read to the stripped texts exactly when no line of
it is broken or taken for an echo, and the numbers are short enough to be read. -/
theorem decodeReply_echo_iff
    (h : ∀ cue ∈ cues, strip cue.text ≠ [] ∧ found sentinelRe cue.text = false) :
    decodeReply cues (echo cues) = .ok (cues.map fun cue => strip cue.text) ↔
      cues.length < 10 ^ maxStrDigits ∧ ∀ cue ∈ cues, EchoSafe cue :=
  ⟨safe_of_decodeReply_echo h, fun hsafe => decodeReply_echo hsafe.1 h hsafe.2⟩

/-- A cue in italics on two lines. -/
def italicCue : SubLine :=
  parseBlock "7\n00:00:01,000 --> 00:00:02,000\n <i>Hello</i>\n(there) "

theorem italicCue_returns : decodeReply [italicCue] (echo [italicCue]) =
    .ok ["<i>Hello</i>\n(there)"] := by
  have htext : strip italicCue.text = "<i>Hello</i>\n(there)" := by decide
  have hcue : ∀ cue ∈ [italicCue], strip cue.text ≠ [] ∧ found sentinelRe cue.text = false := by
    rw [List.forall_mem_singleton]
    decide
  have hsafe : ∀ cue ∈ [italicCue], EchoSafe cue := by
    rw [List.forall_mem_singleton]
    refine ⟨?_, ?_, ?_, ?_⟩
    · have hall : (strip (sentText italicCue)).all
          (fun c => !isLineBreak c || c == '\n') = true := by decide
      intro c hc hbreak
      simpa [hbreak] using List.all_eq_true.mp hall c hc
    all_goals decide
  rw [← htext]
  exact (decodeReply_echo_iff hcue).mpr ⟨Nat.one_lt_pow (by decide) (by decide), hsafe⟩

/-- The line separator of a text is not marked, and the reader ends the line at it. -/
def separatedCue : SubLine :=
  parseBlock "7\n00:00:01,000 --> 00:00:02,000\nHello\u2028there"

theorem separatedCue_cut : separatedCue.raw = none ∧ separatedCue.text = "Hello\u2028there" ∧
    found sentinelRe separatedCue.text = false ∧ EchoFree separatedCue.text ∧
    decodeReply [separatedCue] (echo [separatedCue]) = .ok ["Hello"] := by
  refine ⟨by decide, by decide, by decide, ⟨?_, ?_, ?_⟩, ?_⟩
  all_goals decide

end Echo

end Trezarr
