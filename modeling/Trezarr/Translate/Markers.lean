import Mathlib.Data.List.Perm.Subperm
import Trezarr.Lib.Lines
import Trezarr.Lib.RegexFirst
import Trezarr.Translate.Response

/-! Numbered replies are accepted or rejected as a whole. -/
namespace Trezarr
open Text Regex Regex.Pattern Fallible

def marker (line : Str) : Option Found := matchStart numberedLineRe (strip line)

/-- The number of a marker, however many digits it has. -/
def numberOf (m : Found) : ℕ := (m.group 1).foldl (fun n c => 10 * n + digitValue c) 0

def markerNumber (line : Str) : Option ℕ := (marker line).map numberOf

def markerNumbers (lines : List Str) : List ℕ := lines.filterMap markerNumber

def isOverlong (line : Str) : Bool := (marker line).any fun m => maxStrDigits < (m.group 1).length

/-- Whether lines without a marker continue the cue of this number. -/
def isContinued (multiline : Option (List ℕ)) (k : ℕ) : Bool := multiline.all (k ∈ ·)

/-- The text of a cue that is not continued, by the line of its marker alone. -/
def lineText (m : Found) : Str := stripEchoes (restoreBreaks (strip (m.group 2)))

/-- A marker too long to be read as a number comes after a line that repeats one. -/
def MarkersReadable (response : Str) : Prop :=
  ∀ before line after, splitlines response = before ++ line :: after → isOverlong line = true →
    ¬ (markerNumbers before).Nodup

/-- What a whole reply is read to: a text for each cue, none of them blank, the markers being
exactly the numbers of the cues, and a cue that is not continued read from its own line. -/
structure Complete (response : Str) (n : ℕ) (multiline : Option (List ℕ)) (texts : List Str) :
    Prop where
  length : texts.length = n
  nonblank : ∀ text ∈ texts, strip text ≠ []
  markers : (markerNumbers (splitlines response)).Perm (List.range' 1 n)
  isolated : ∀ line ∈ splitlines response, ∀ m, marker line = some m →
    isContinued multiline (numberOf m) = false → texts[numberOf m - 1]? = some (lineText m)

/-- The reply is read as a whole or rejected as one. -/
def Whole (response : Str) (n : ℕ) (multiline : Option (List ℕ)) : Prop :=
  match parseNumberedResponse response n multiline with
  | .ok texts => Complete response n multiline texts
  | .error (.batchValidation _) => True
  | .error _ => False

/-- The state after some lines, all of them read. -/
structure Reads (multiline : Option (List ℕ)) (lines : List Str) (st : ParseState) : Prop where
  keys : ∀ k, k ∈ st.parsed.keys ↔ k ∈ markerNumbers lines
  nodup : (markerNumbers lines).Nodup
  short : ∀ line ∈ lines, isOverlong line = false
  current : ∀ k, st.current = some k → k ∈ st.parsed.keys
  text : ∀ line ∈ lines, ∀ m, marker line = some m → isContinued multiline (numberOf m) = false →
    st.parsed.get? (numberOf m) = some (strip (m.group 2))

theorem first_number {digits : Str} (hne : digits ≠ []) (hdigits : ∀ d ∈ digits, isDigit d = true)
    (rest : Str) : (plus digit).first ⟨['['], digits ++ ']' :: rest, []⟩ =
      some ⟨digits.reverse ++ ['['], ']' :: rest, []⟩ := by
  have hbracket : isDigit ']' = false := by decide
  have htake : (digits ++ ']' :: rest).takeWhile isDigit = digits := by
    rw [List.takeWhile_append_of_pos hdigits]
    simp [hbracket]
  have hdrop : (digits ++ ']' :: rest).dropWhile isDigit = ']' :: rest := by
    rw [List.dropWhile_append_of_pos hdigits]
    simp [hbracket]
  obtain ⟨d, ds, rfl⟩ : ∃ d ds, digits = d :: ds := List.exists_cons_of_ne_nil hne
  refine (first_plus_set rfl (hdigits d List.mem_cons_self)).trans ?_
  rw [htake, hdrop]

/-- A marker and the blank after it, and the text up to the end of its line. -/
theorem matchStart_numberedLineRe {digits body : Str} (hne : digits ≠ [])
    (hdigits : ∀ d ∈ digits, isDigit d = true) :
    ∃ m, matchStart numberedLineRe ('[' :: (digits ++ ']' :: ' ' :: body)) = some m ∧
      m.group 1 = digits ∧ m.group 2 = (body.dropWhile isSpace).takeWhile (· ≠ '\n') := by
  have hblank : isSpace ' ' = true := by decide
  have hpoint : ' ' ∉ (".)" : Str) := by decide
  have hfirst : ∃ e, numberedLineRe.first ⟨[], '[' :: (digits ++ ']' :: ' ' :: body), []⟩ =
      some e ∧ e.groups = [(2, (body.dropWhile isSpace).takeWhile (· ≠ '\n')), (1, digits)] := by
    refine exists_first_seq (first_char rfl) ?_
    refine exists_first_seq (first_group (first_number hne hdigits _) rfl) ?_
    refine exists_first_seq (first_char rfl) ?_
    refine exists_first_seq ((first_alt_right (first_set_none rfl (decide_eq_false hpoint))).trans
      first_eps) ?_
    refine exists_first_seq first_star_set ?_
    refine exists_first_seq (first_group first_star_set (List.takeWhile_append_dropWhile).symm)
      ⟨_, first_eps, ?_⟩
    simp [hblank]
  obtain ⟨e, he, hgroups⟩ := hfirst
  refine ⟨_, matchAt_of_first he, ?_, ?_⟩
  · simp [Found.group, hgroups]
  · simp [Found.group, hgroups]

section Reading

variable {multiline : Option (List ℕ)} {lines : List Str} {line : Str} {st st' : ParseState}
  {m : Found} {k : ℕ}

theorem mem_keys_set {κ ν : Type} [DecidableEq κ] {d : Dict κ ν} {k k' : κ} {v : ν} :
    k' ∈ (d.set k v).keys ↔ k' = k ∨ k' ∈ d.keys :=
  Dict.mem_keys_setEntries

theorem markerNumbers_concat : markerNumbers (lines ++ [line]) =
    markerNumbers lines ++ (markerNumber line).toList := by
  cases h : markerNumber line <;> simp [markerNumbers, List.filterMap_append, h]

theorem reads_nil : Reads multiline [] {} where
  keys k := by simp [markerNumbers, Dict.keys, Dict.empty]
  nodup := List.nodup_nil
  short _ h := absurd h List.not_mem_nil
  current _ h := nomatch h
  text _ h := absurd h List.not_mem_nil

/-- A line without a marker changes no text but that of a cue that is continued. -/
theorem Reads.continue (h : Reads multiline lines st) (hline : marker line = none) (stripped : Str) :
    Reads multiline (lines ++ [line]) (continueLine st stripped multiline) := by
  have hnumbers : markerNumbers (lines ++ [line]) = markerNumbers lines := by
    rw [markerNumbers_concat, markerNumber, hline]
    simp
  have hshort : ∀ l ∈ lines ++ [line], isOverlong l = false := by
    intro l hl
    rcases List.mem_append.mp hl with hl | hl
    · exact h.short l hl
    · rw [List.mem_singleton.mp hl, isOverlong, hline]
      rfl
  have hold : ∀ l ∈ lines ++ [line], ∀ m, marker l = some m → l ∈ lines := by
    intro l hl m hm
    rcases List.mem_append.mp hl with hl | hl
    · exact hl
    · rw [List.mem_singleton.mp hl, hline] at hm
      cases hm
  have hsame : Reads multiline (lines ++ [line]) st :=
    ⟨hnumbers ▸ h.keys, hnumbers ▸ h.nodup, hshort, h.current,
      fun l hl m hm => h.text l (hold l hl m hm) m hm⟩
  unfold continueLine
  split
  · exact hsame
  · next current hcurrent =>
    split
    · next hcontinued =>
      have hkey := h.current current hcurrent
      refine ⟨fun k => ?_, hsame.nodup, hshort, fun k hk => ?_, fun l hl m hm hnot => ?_⟩
      · rw [mem_keys_set, hsame.keys]
        exact or_iff_right_of_imp fun heq => heq ▸ (hsame.keys current).mp hkey
      · exact mem_keys_set.mpr (.inr (h.current k hk))
      · have hne : numberOf m ≠ current := by
          rintro rfl
          exact absurd hcontinued.2 (by simpa [isContinued] using hnot)
        exact (Dict.get?_set_of_ne hne).trans (hsame.text l hl m hm hnot)
    · exact hsame

theorem pyInt_marker (m : Found) : pyInt (m.group 1) =
    if maxStrDigits < (m.group 1).length then .error .valueError else .ok (numberOf m) := rfl

/-- A line is read, unless its marker is too long or its number has been read before. -/
theorem Reads.step (h : Reads multiline lines st) (line : Str) :
    match readLine multiline st line with
    | .ok st' => Reads multiline (lines ++ [line]) st'
    | .error err => if isOverlong line then err = .valueError
        else ∃ k ∈ markerNumbers lines, markerNumber line = some k ∧
          err = .batchValidation (.duplicateLine k) := by
  unfold readLine
  dsimp only
  rw [show matchStart numberedLineRe (strip line) = marker line from rfl]
  cases hmarker : marker line with
  | none => exact h.continue hmarker (strip line)
  | some m =>
    have hlong : isOverlong line = decide (maxStrDigits < (m.group 1).length) := by
      simp [isOverlong, hmarker]
    have hnumber : markerNumber line = some (numberOf m) := by simp [markerNumber, hmarker]
    dsimp only
    rw [pyInt_marker]
    by_cases hdigits : maxStrDigits < (m.group 1).length
    · simp [hdigits, hlong]
    · rw [if_neg hdigits, ok_bind]
      by_cases hrepeated : numberOf m ∈ st.parsed.keys
      · rw [if_pos hrepeated]
        simp only [hlong, hdigits, decide_false, Bool.false_eq_true, if_false]
        exact ⟨numberOf m, (h.keys _).mp hrepeated, hnumber, rfl⟩
      · rw [if_neg hrepeated]
        refine ⟨fun k => ?_, ?_, fun l hl => ?_, fun k hk => ?_, fun l hl m' hm' hnot => ?_⟩
        · refine mem_keys_set.trans ?_
          rw [h.keys, markerNumbers_concat, hnumber]
          simp [or_comm, numberOf]
        · rw [markerNumbers_concat, hnumber]
          refine List.nodup_append.mpr ⟨h.nodup, by simp, ?_⟩
          rintro k hk _ hm' rfl
          rw [Option.toList_some, List.mem_singleton] at hm'
          exact hrepeated ((h.keys _).mpr (hm' ▸ hk))
        · rcases List.mem_append.mp hl with hl | hl
          · exact h.short l hl
          · rw [List.mem_singleton.mp hl, hlong]
            exact decide_eq_false hdigits
        · cases hk
          exact mem_keys_set.mpr (.inl rfl)
        · rcases List.mem_append.mp hl with hl | hl
          · have hne : numberOf m' ≠ numberOf m := by
              intro heq
              refine hrepeated ((h.keys _).mpr ?_)
              rw [← heq]
              exact List.mem_filterMap.mpr ⟨l, hl, by simp [markerNumber, hm']⟩
            exact (Dict.get?_set_of_ne hne).trans (h.text l hl m' hm' hnot)
          · rw [List.mem_singleton.mp hl, hmarker] at hm'
            cases hm'
            exact Dict.get?_set_self

/-- Reading goes to the end or stops at a marker that is repeated or too long. -/
theorem Reads.run (rest : List Str) : ∀ {lines : List Str} {st : ParseState},
    Reads multiline lines st →
    match rest.foldlM (readLine multiline) st with
    | .ok st' => Reads multiline (lines ++ rest) st'
    | .error err => ∃ before line after st', rest = before ++ line :: after ∧
        Reads multiline (lines ++ before) st' ∧
        if isOverlong line then err = .valueError
        else ∃ k ∈ markerNumbers (lines ++ before), markerNumber line = some k ∧
          err = .batchValidation (.duplicateLine k) := by
  induction rest with
  | nil =>
    intro lines st h
    simpa using h
  | cons line rest ih =>
    intro lines st h
    have hstep := h.step line
    rw [List.foldlM_cons]
    cases hread : readLine multiline st line with
    | error err =>
      rw [hread] at hstep
      exact ⟨[], line, rest, st, rfl, by simpa using h, by simpa using hstep⟩
    | ok st' =>
      rw [hread] at hstep
      have hrest := ih hstep
      rw [ok_bind]
      cases hfold : rest.foldlM (readLine multiline) st' with
      | ok st'' =>
        rw [hfold] at hrest
        simpa using hrest
      | error err =>
        rw [hfold] at hrest
        obtain ⟨before, last, after, st'', rfl, hreads, hwhy⟩ := hrest
        refine ⟨line :: before, last, after, st'', rfl, ?_, ?_⟩
        · simpa using hreads
        · simpa using hwhy

theorem finishLine_ok {parsed : Dict ℕ Str} {n : ℕ} {text : Str}
    (h : finishLine parsed n k = .ok text) : strip text ≠ [] ∧
      ∃ raw, parsed.get? k = some raw ∧ text = stripEchoes (restoreBreaks raw) := by
  unfold finishLine at h
  split at h
  · cases h
  · next raw hraw =>
    dsimp only at h
    split at h
    · cases h
    · next hblank =>
      cases h
      exact ⟨hblank, raw, hraw, rfl⟩

theorem finishLine_error {parsed : Dict ℕ Str} {n : ℕ} {err : PyError}
    (h : finishLine parsed n k = .error err) : ∃ defect, err = .batchValidation defect := by
  unfold finishLine at h
  split at h
  · cases h
    exact ⟨_, rfl⟩
  · dsimp only at h
    split at h
    · cases h
      exact ⟨_, rfl⟩
    · cases h

/-- Once all lines are read, what is left to go wrong is a rejection of the batch. -/
theorem Reads.whole {response : Str} {n : ℕ} (h : Reads multiline (splitlines response) st)
    (hfold : (splitlines response).foldlM (readLine multiline) {} = .ok st) :
    Whole response n multiline := by
  unfold Whole parseNumberedResponse
  rw [hfold, ok_bind]
  dsimp only
  by_cases hextra : st.parsed.keys.filter (fun k => k < 1 ∨ n < k) ≠ []
  · rw [if_pos hextra]
    trivial
  · rw [if_neg hextra]
    cases hfinish : (List.range' 1 n).mapM (finishLine st.parsed n) with
    | error err =>
      obtain ⟨k, -, hk⟩ := mapM_error hfinish
      obtain ⟨defect, rfl⟩ := finishLine_error hk
      trivial
    | ok texts =>
      have hplace : ∀ k, 1 ≤ k → k ≤ n → ∃ text, texts[k - 1]? = some text ∧
          finishLine st.parsed n k = .ok text := by
        intro k hk hkn
        refine mapM_getElem? hfinish ?_
        rw [List.getElem?_range' (by omega)]
        simp [Nat.add_sub_cancel' hk]
      have hrange : ∀ k ∈ markerNumbers (splitlines response), 1 ≤ k ∧ k ≤ n := by
        intro k hk
        have hnone := List.filter_eq_nil_iff.mp (not_not.mp hextra) k ((h.keys k).mpr hk)
        simp only [decide_eq_true_eq] at hnone
        omega
      refine ⟨?_, fun text htext => ?_, ?_, fun line hline m hm hnot => ?_⟩
      · rw [← (mapM_ok hfinish).length_eq, List.length_range']
      · obtain ⟨k, -, hk⟩ := mem_of_mapM hfinish htext
        exact (finishLine_ok hk).1
      · refine (List.perm_ext_iff_of_nodup h.nodup (List.nodup_range' 1)).mpr fun k => ?_
        rw [List.mem_range'_1]
        constructor
        · intro hk
          have := hrange k hk
          omega
        · intro hk
          obtain ⟨text, -, hfinished⟩ := hplace k hk.1 (by omega)
          obtain ⟨-, raw, hraw, -⟩ := finishLine_ok hfinished
          exact (h.keys k).mp (Dict.mem_keys_iff.mpr ⟨raw, hraw⟩)
      · have hmem : numberOf m ∈ markerNumbers (splitlines response) :=
          List.mem_filterMap.mpr ⟨line, hline, by simp [markerNumber, hm]⟩
        obtain ⟨text, htext, hfinished⟩ := hplace _ (hrange _ hmem).1 (hrange _ hmem).2
        obtain ⟨-, raw, hraw, rfl⟩ := finishLine_ok hfinished
        cases hraw.symm.trans (h.text line hline m hm hnot)
        exact htext

/-- The reply is read or rejected as a whole unless a marker is too long to be read and no marker
before it is repeated: the number itself is what fails then. -/
theorem whole_iff (response : Str) (n : ℕ) (multiline : Option (List ℕ)) :
    Whole response n multiline ↔ MarkersReadable response := by
  have hrun := (@reads_nil multiline).run (splitlines response)
  cases hfold : (splitlines response).foldlM (readLine multiline) {} with
  | ok st =>
    rw [hfold] at hrun
    refine ⟨fun _ before line after hsplit hlong => ?_, fun _ => hrun.whole hfold⟩
    have hshort := hrun.short line (by rw [List.nil_append, hsplit]; simp)
    rw [hshort] at hlong
    cases hlong
  | error err =>
    rw [hfold] at hrun
    obtain ⟨before, line, after, st, hsplit, hreads, hwhy⟩ := hrun
    have hparse : parseNumberedResponse response n multiline = .error err := by
      rw [parseNumberedResponse, hfold, error_bind]
    simp only [Whole, hparse, List.nil_append] at hreads hwhy ⊢
    cases hlong : isOverlong line with
    | true =>
      rw [hlong, if_pos rfl] at hwhy
      subst hwhy
      refine ⟨False.elim, fun hreadable => ?_⟩
      exact hreadable before line after hsplit hlong hreads.nodup
    | false =>
      rw [hlong, if_neg Bool.false_ne_true] at hwhy
      obtain ⟨k, hk, hnumber, rfl⟩ := hwhy
      refine ⟨fun _ before' line' after' hsplit' hlong' hnodup => ?_, fun _ => trivial⟩
      rcases List.append_eq_append_iff.mp (hsplit.symm.trans hsplit') with
        ⟨u, rfl, hu⟩ | ⟨u, rfl, hu⟩
      · cases u with
        | nil =>
          cases hu
          rw [hlong] at hlong'
          cases hlong'
        | cons c u =>
          obtain ⟨rfl, -⟩ := List.cons.inj hu
          have hsub : (markerNumbers (before ++ [line])).Sublist
              (markerNumbers (before ++ line :: u)) := by
            refine List.Sublist.filterMap _ ?_
            simp
          have hrepeated := hnodup.sublist hsub
          rw [markerNumbers_concat, hnumber, List.nodup_append] at hrepeated
          exact hrepeated.2.2 k hk k (by simp) rfl
      · cases u with
        | nil =>
          cases hu
          rw [hlong] at hlong'
          cases hlong'
        | cons c u =>
          obtain ⟨rfl, -⟩ := List.cons.inj hu
          have hshort := hreads.short line' (by simp)
          rw [hshort] at hlong'
          cases hlong'

theorem overlong_raises {digits : Str} (hdigits : ∀ d ∈ digits, isDigit d = true)
    (hlong : maxStrDigits < digits.length) :
    parseNumberedResponse ('[' :: (digits ++ "] a")) 1 (some []) = .error .valueError := by
  have hplain : ∀ c ∈ '[' :: (digits ++ "] a"), isLineBreak c = false := by
    intro c hc
    rcases List.mem_cons.mp hc with rfl | hc
    · decide
    · rcases List.mem_append.mp hc with hc | hc
      · cases hbreak : isLineBreak c with
        | false => rfl
        | true =>
          have hspace := isSpace_of_isLineBreak hbreak
          rw [not_isSpace_of_isDigit (hdigits c hc)] at hspace
          cases hspace
      · have hend : ("] a" : Str).all (fun d => !isLineBreak d) = true := by decide
        simpa using List.all_eq_true.mp hend c hc
  have hlines := splitlines_last hplain (List.cons_ne_nil _ _)
  have hstrip : strip ('[' :: (digits ++ "] a")) = '[' :: (digits ++ "] a") := by
    refine strip_eq_self (fun c hc => ?_) fun c hc => ?_
    · cases hc
      decide
    · have hlast : '[' :: (digits ++ ("] a" : Str)) = ('[' :: (digits ++ [']', ' '])) ++ ['a'] := by
        simp
      rw [hlast, List.getLast?_concat] at hc
      cases hc
      decide
  have hne : digits ≠ [] := by
    rintro rfl
    exact absurd hlong (by decide)
  obtain ⟨m, hm, hgroup, -⟩ := @matchStart_numberedLineRe digits ['a'] hne hdigits
  have hread : readLine (some []) {} ('[' :: (digits ++ "] a")) = .error .valueError := by
    unfold readLine
    dsimp only
    rw [hstrip, show matchStart numberedLineRe ('[' :: (digits ++ "] a")) = some m from hm]
    dsimp only
    rw [pyInt_marker, hgroup, if_pos hlong]
    rfl
  rw [parseNumberedResponse, hlines, List.foldlM_cons, hread]
  rfl

/-- One numbered line, with one digit more than a number is read with. -/
def overlongReply : Str := '[' :: (List.replicate 4301 '1' ++ "] a")

theorem overlongReply_raises :
    parseNumberedResponse overlongReply 1 (some []) = .error .valueError := by
  refine overlong_raises (fun d hd => ?_) ?_
  · rw [List.eq_of_mem_replicate hd]
    decide
  · rw [List.length_replicate]
    decide

end Reading

end Trezarr
