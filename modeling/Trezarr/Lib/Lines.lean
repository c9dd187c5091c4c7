import Mathlib.Tactic.FinCases
import Trezarr.Lib.Text

/-! White space, line ends and digits: what the string operations keep. -/
namespace Text

theorem isSpace_of_isLineBreak {c : Char} (h : isLineBreak c = true) : isSpace c = true := by
  have hmem : c ∈ ['\n', '\r', '\x0b', '\x0c', '\x1c', '\x1d', '\x1e', '\x85', '\u2028',
      '\u2029'] := by simpa [isLineBreak] using h
  fin_cases hmem <;> decide

theorem inRanges_some {rs : List (ℕ × ℕ)} {n : ℕ} (h : inRanges rs n = true) :
    ∃ r ∈ rs, r.1 ≤ n ∧ n ≤ r.2 := by
  induction rs with
  | nil => cases h
  | cons r rs ih =>
    obtain ⟨lo, hi⟩ := r
    simp only [inRanges] at h
    split at h
    · cases h
    · split at h
      · exact ⟨(lo, hi), List.mem_cons_self, by omega, by omega⟩
      · obtain ⟨q, hq, hbounds⟩ := ih h
        exact ⟨q, List.mem_cons_of_mem _ hq, hbounds⟩

theorem spaces_apart_from_digits :
    ∀ r ∈ spaceRanges, ∀ q ∈ digitRanges, r.2 < q.1 ∨ q.2 < r.1 := by
  decide

theorem not_isSpace_of_isDigit {c : Char} (h : isDigit c = true) : isSpace c = false := by
  cases hs : isSpace c with
  | false => rfl
  | true =>
    obtain ⟨r, hr, hspace⟩ := inRanges_some hs
    obtain ⟨q, hq, hdigit⟩ := inRanges_some h
    have hapart := spaces_apart_from_digits r hr q hq
    omega

/-- A run of one kind of character at the front of two equal texts, cut where it ends. -/
theorem run_unique {p : Char → Bool} {w w' x x' : Str} (hw : ∀ c ∈ w, p c = true)
    (hw' : ∀ c ∈ w', p c = true) (hx : ∀ c, x.head? = some c → p c = false)
    (hx' : ∀ c, x'.head? = some c → p c = false) (h : w ++ x = w' ++ x') : w = w' ∧ x = x' := by
  have hcut : ∀ {w y : Str}, (∀ c ∈ w, p c = true) →
      (∀ c, y.head? = some c → p c = false) → (w ++ y).takeWhile p = w := by
    intro w y hw hy
    rw [List.takeWhile_append_of_pos hw]
    cases y with
    | nil => simp
    | cons c y => simp [hy c rfl]
  have hsame := congrArg (List.takeWhile p) h
  rw [hcut hw hx, hcut hw' hx'] at hsame
  subst hsame
  exact ⟨rfl, List.append_cancel_left h⟩

theorem strip_eq_nil {s : Str} : strip s = [] ↔ ∀ c ∈ s, isSpace c = true := by
  rw [strip, rstrip, List.rdropWhile_eq_nil_iff, lstrip]
  constructor
  · intro h c hc
    rw [← List.takeWhile_append_dropWhile (p := isSpace) (l := s)] at hc
    rcases List.mem_append.mp hc with hc | hc
    · exact List.mem_takeWhile_imp hc
    · exact h c hc
  · intro h c hc
    exact h c ((List.dropWhile_sublist isSpace).mem hc)

theorem strip_eq_self {s : Str} (hfirst : ∀ c, s.head? = some c → isSpace c = false)
    (hlast : ∀ c, s.getLast? = some c → isSpace c = false) : strip s = s := by
  have hl : lstrip s = s := by
    cases s with
    | nil => rfl
    | cons c s => simp [lstrip, hfirst c rfl]
  rw [strip, hl, rstrip, List.rdropWhile_eq_self_iff]
  intro hne
  rw [hlast _ (List.getLast?_eq_getLast_of_ne_nil hne)]
  exact Bool.false_ne_true

theorem head_strip {s : Str} {c : Char} (h : (strip s).head? = some c) : isSpace c = false := by
  have hl : (lstrip s).head? = some c := by
    obtain ⟨t, ht⟩ := List.rdropWhile_prefix isSpace (lstrip s)
    rw [← ht, List.head?_append]
    have h' : ((lstrip s).rdropWhile isSpace).head? = some c := h
    rw [h']
    rfl
  have hnot := List.head?_dropWhile_not isSpace s
  rw [show List.dropWhile isSpace s = lstrip s from rfl, hl] at hnot
  simpa using hnot

theorem strip_cons {c : Char} (h : isSpace c = false) (s : Str) :
    ∃ rest, strip (c :: s) = c :: rest := by
  have hl : lstrip (c :: s) = c :: s := by simp [lstrip, h]
  obtain ⟨t, ht⟩ := List.rdropWhile_prefix isSpace (c :: s)
  have hne : strip (c :: s) ≠ [] := by
    intro hnil
    rw [strip_eq_nil.mp hnil c List.mem_cons_self] at h
    cases h
  rw [strip, hl] at hne ⊢
  obtain ⟨d, rest, hstrip⟩ := List.exists_cons_of_ne_nil hne
  have hrest : (c :: s).rdropWhile isSpace = d :: rest := hstrip
  rw [hrest] at ht
  obtain ⟨rfl, _⟩ := List.cons.inj ht
  exact ⟨rest, hstrip⟩

theorem last_strip {s : Str} {c : Char} (h : (strip s).getLast? = some c) : isSpace c = false := by
  have hne : (lstrip s).rdropWhile isSpace ≠ [] := by
    intro hnil
    have h' : ((lstrip s).rdropWhile isSpace).getLast? = some c := h
    rw [hnil] at h'
    cases h'
  have hnot := List.rdropWhile_last_not isSpace (lstrip s) hne
  have hc : ((lstrip s).rdropWhile isSpace).getLast hne = c := by
    have h' : ((lstrip s).rdropWhile isSpace).getLast? = some c := h
    rw [List.getLast?_eq_getLast_of_ne_nil hne] at h'
    exact Option.some.inj h'
  rw [hc] at hnot
  simpa using hnot

theorem strip_strip (s : Str) : strip (strip s) = strip s :=
  strip_eq_self (fun _ => head_strip) fun _ => last_strip

/-- Every character is in one line or in the break that ends it. -/
theorem flatten_lineSpans (s : Str) : ((lineSpans s).map fun (l, e) => l ++ e).flatten = s := by
  induction s using lineSpans.induct with
  | case1 => rfl
  | case2 s ih => simp [lineSpans, ih]
  | case3 c s hnot hbreak ih => simp [lineSpans, hbreak, ih]
  | case4 c s hnot hbreak hspans ih =>
    have hs : s = [] := by simpa [hspans] using ih.symm
    simp [lineSpans, hbreak, hs]
  | case5 c s hnot hbreak line ending spans hspans ih =>
    have hs : s = line ++ (ending ++ (spans.map fun (l, e) => l ++ e).flatten) := by
      simpa [hspans] using ih.symm
    have hcons : lineSpans (c :: s) = (c :: line, ending) :: spans := by
      simp [lineSpans, hbreak, hspans]
    rw [hcons, hs]
    simp

/-- Breaks end lines; they are never in one. -/
theorem not_isLineBreak_of_mem_line {s : Str} :
    ∀ span ∈ lineSpans s, ∀ c ∈ span.1, isLineBreak c = false := by
  induction s using lineSpans.induct with
  | case1 => simp [lineSpans]
  | case2 s ih =>
    intro span hspan
    rcases List.mem_cons.mp hspan with rfl | hspan
    · simp
    · exact ih span hspan
  | case3 c s hnot hbreak ih =>
    intro span hspan
    simp only [lineSpans, hbreak, if_true] at hspan
    rcases List.mem_cons.mp hspan with rfl | hspan
    · simp
    · exact ih span hspan
  | case4 c s hnot hbreak hspans ih =>
    intro span hspan
    have hcons : lineSpans (c :: s) = [([c], [])] := by simp [lineSpans, hbreak, hspans]
    rw [hcons] at hspan
    rw [List.mem_singleton.mp hspan]
    simpa using hbreak
  | case5 c s hnot hbreak line ending spans hspans ih =>
    intro span hspan
    have hcons : lineSpans (c :: s) = (c :: line, ending) :: spans := by
      simp [lineSpans, hbreak, hspans]
    rw [hcons] at hspan
    rw [hspans] at ih
    rcases List.mem_cons.mp hspan with rfl | hspan
    · intro x hx
      rcases List.mem_cons.mp hx with rfl | hx
      · simpa using hbreak
      · exact ih _ List.mem_cons_self x hx
    · exact ih span (List.mem_cons_of_mem _ hspan)

/-- How the first line of a text ends: at a break, or with the text. -/
inductive LineEnd : Str → Str → Prop
  | crlf {rest : Str} : LineEnd ['\r', '\n'] rest
  | single {c : Char} {rest : Str} (hc : isLineBreak c = true)
    (hrest : c = '\r' → rest.head? ≠ some '\n') : LineEnd [c] rest
  | finish : LineEnd [] []

/-- The first line of a text, its end and the lines of the rest. -/
theorem lineSpans_cons {s line ending : Str} {spans : List (Str × Str)}
    (h : lineSpans s = (line, ending) :: spans) : ∃ rest, s = line ++ (ending ++ rest) ∧
      spans = lineSpans rest ∧ LineEnd ending rest := by
  induction s using lineSpans.induct generalizing line with
  | case1 => cases h
  | case2 s ih =>
    simp only [lineSpans, List.cons.injEq, Prod.mk.injEq] at h
    obtain ⟨⟨rfl, rfl⟩, rfl⟩ := h
    exact ⟨s, rfl, rfl, .crlf⟩
  | case3 c s hnot hbreak ih =>
    simp only [lineSpans, hbreak, if_true, List.cons.injEq, Prod.mk.injEq] at h
    obtain ⟨⟨rfl, rfl⟩, rfl⟩ := h
    refine ⟨s, rfl, rfl, .single hbreak fun hc hhead => ?_⟩
    cases s with
    | nil => cases hhead
    | cons d s =>
      cases hhead
      exact hnot s hc rfl
  | case4 c s hnot hbreak hspans ih =>
    have hs : s = [] := by simpa [hspans] using (flatten_lineSpans s).symm
    have hcons : lineSpans (c :: s) = [([c], [])] := by simp [lineSpans, hbreak, hspans]
    rw [hcons] at h
    cases h
    exact ⟨[], by rw [hs]; rfl, rfl, .finish⟩
  | case5 c s hnot hbreak line' ending' spans' hspans ih =>
    have hcons : lineSpans (c :: s) = (c :: line', ending') :: spans' := by
      simp [lineSpans, hbreak, hspans]
    rw [hcons] at h
    cases h
    obtain ⟨rest, hs, hrest⟩ := ih hspans
    exact ⟨rest, by rw [hs]; rfl, hrest⟩

theorem not_isLineBreak_of_mem_splitlines {s line : Str} (h : line ∈ splitlines s) :
    ∀ c ∈ line, isLineBreak c = false := by
  obtain ⟨span, hspan, rfl⟩ := List.mem_map.mp h
  exact not_isLineBreak_of_mem_line span hspan

theorem lineSpans_cons_of_no_break {c : Char} (hc : isLineBreak c = false) (s : Str) :
    lineSpans (c :: s) = match lineSpans s with
      | [] => [([c], [])]
      | (line, ending) :: spans => (c :: line, ending) :: spans := by
  have hreturn : c ≠ '\r' := by
    rintro rfl
    exact absurd hc (by decide)
  cases s with
  | nil => simp [lineSpans, hc]
  | cons d s =>
    rw [lineSpans]
    · exact if_neg (by simp [hc])
    · rintro _ rfl
      exact (hreturn rfl).elim

/-- A line without a break inside, before the break that ends it, -/
theorem lineSpans_line {line : Str} (h : ∀ c ∈ line, isLineBreak c = false) (s : Str) :
    lineSpans (line ++ '\n' :: s) = (line, ['\n']) :: lineSpans s := by
  induction line with
  | nil =>
    have hbreak : isLineBreak '\n' = true := by decide
    simp [lineSpans, hbreak]
  | cons c line ih =>
    rw [List.cons_append, lineSpans_cons_of_no_break (h c List.mem_cons_self),
      ih fun d hd => h d (List.mem_cons_of_mem c hd)]

/-- and at the end of the text. -/
theorem lineSpans_last {line : Str} (h : ∀ c ∈ line, isLineBreak c = false) (hne : line ≠ []) :
    lineSpans line = [(line, [])] := by
  induction line with
  | nil => exact absurd rfl hne
  | cons c line ih =>
    rw [lineSpans_cons_of_no_break (h c List.mem_cons_self)]
    cases line with
    | nil => rfl
    | cons d line => rw [ih (fun e he => h e (List.mem_cons_of_mem c he)) (List.cons_ne_nil d line)]

theorem lineSpans_eq_nil {s : Str} : lineSpans s = [] ↔ s = [] := by
  constructor
  · intro h
    simpa [h] using (flatten_lineSpans s).symm
  · rintro rfl
    rfl

theorem lineSpans_cons_append_break {c : Char} (hc : isLineBreak c = false) {s t : Str}
    (h : lineSpans (s ++ '\n' :: t) = lineSpans (s ++ ['\n']) ++ lineSpans t) :
    lineSpans (c :: s ++ '\n' :: t) = lineSpans (c :: s ++ ['\n']) ++ lineSpans t := by
  obtain ⟨span, spans, hspans⟩ : ∃ span spans, lineSpans (s ++ ['\n']) = span :: spans :=
    List.exists_cons_of_ne_nil fun hnil => by simpa using lineSpans_eq_nil.mp hnil
  rw [List.cons_append, List.cons_append, lineSpans_cons_of_no_break hc,
    lineSpans_cons_of_no_break hc, h, hspans]
  rfl

theorem lineSpans_append_break (s t : Str) :
    lineSpans (s ++ '\n' :: t) = lineSpans (s ++ ['\n']) ++ lineSpans t := by
  induction s using lineSpans.induct with
  | case1 =>
    have hbreak : isLineBreak '\n' = true := by decide
    simp [lineSpans, hbreak]
  | case2 s ih => simp [lineSpans, ih]
  | case3 c s hnot hbreak ih =>
    cases s with
    | nil =>
      by_cases hc : c = '\r'
      · rw [hc]
        simp [lineSpans]
      · have hlf : isLineBreak '\n' = true := by decide
        simp [lineSpans, hc, hbreak, hlf]
    | cons d s =>
      have hfirst : ∀ u, lineSpans (c :: d :: (s ++ u)) =
          ([], [c]) :: lineSpans (d :: (s ++ u)) := by
        intro u
        rw [lineSpans]
        · exact if_pos hbreak
        · rintro _ hc heq
          cases heq
          exact hnot s hc rfl
      rw [List.cons_append, List.cons_append, hfirst, List.cons_append, List.cons_append, hfirst,
        List.cons_append]
      exact congrArg _ ih
  | case4 c s hnot hbreak hspans ih =>
    exact lineSpans_cons_append_break (by simpa using hbreak) ih
  | case5 c s hnot hbreak line ending spans hspans ih =>
    exact lineSpans_cons_append_break (by simpa using hbreak) ih

/-- Nothing before a break is read with what is after it. -/
theorem splitlines_append_break (s t : Str) :
    splitlines (s ++ '\n' :: t) = splitlines (s ++ ['\n']) ++ splitlines t := by
  rw [splitlines, lineSpans_append_break, List.map_append]
  rfl

theorem splitlines_last {line : Str} (h : ∀ c ∈ line, isLineBreak c = false) (hne : line ≠ []) :
    splitlines line = [line] := by
  rw [splitlines, lineSpans_last h hne]
  rfl

/-- Lines joined by a break are the lines of the text. -/
theorem splitlines_join {lines : List Str}
    (h : ∀ line ∈ lines, line ≠ [] ∧ ∀ c ∈ line, isLineBreak c = false) :
    splitlines (join "\n" lines) = lines := by
  induction lines with
  | nil => rfl
  | cons line lines ih =>
    obtain ⟨hne, hline⟩ := h line List.mem_cons_self
    cases lines with
    | nil => simpa [join] using splitlines_last hline hne
    | cons next lines =>
      have hrest := ih fun l hl => h l (List.mem_cons_of_mem line hl)
      have hjoin : join "\n" (line :: next :: lines) = line ++ '\n' :: join "\n" (next :: lines) := by
        simp [join, List.intercalate]
      rw [splitlines] at hrest ⊢
      rw [hjoin, lineSpans_line hline, List.map_cons, hrest]

theorem mem_of_mem_strip {s : Str} {c : Char} (h : c ∈ strip s) : c ∈ s := by
  have hl : c ∈ lstrip s := (List.rdropWhile_prefix isSpace (lstrip s)).mem h
  exact (List.dropWhile_sublist isSpace).mem hl

theorem splitMax_ne_nil (sep : Char) (n : ℕ) (s : Str) : splitMax sep n s ≠ [] := by
  cases n with
  | zero => simp [splitMax]
  | succ n =>
    simp only [splitMax]
    split <;> simp

/-- There is one part more than there are separators, up to the limit. -/
theorem splitMax_length (sep : Char) (n : ℕ) :
    ∀ s, (splitMax sep n s).length = min (s.count sep) n + 1 := by
  induction n with
  | zero => simp [splitMax]
  | succ n ih =>
    intro s
    have hcut := List.takeWhile_append_dropWhile (p := fun x : Char => decide (x ≠ sep)) (l := s)
    have hfront : (s.takeWhile (· ≠ sep)).count sep = 0 := by
      rw [List.count_eq_zero]
      intro hmem
      simpa using List.mem_takeWhile_imp hmem
    have hcount : s.count sep = (s.dropWhile (· ≠ sep)).count sep := by
      rw [← hcut, List.count_append, hfront, Nat.zero_add, hcut]
    simp only [splitMax]
    split
    next hrest =>
      rw [hrest] at hcount
      simp [hcount]
    next c rest hrest =>
      have hc : c = sep := by
        have hnot := List.head?_dropWhile_not (fun x : Char => decide (x ≠ sep)) s
        rw [hrest] at hnot
        simpa using hnot
      rw [hrest, hc, List.count_cons_self] at hcount
      rw [List.length_cons, ih rest, hcount]
      omega

/-- Splitting loses nothing: the parts joined again are the text. -/
theorem join_splitMax (sep : Char) (n : ℕ) : ∀ s, join [sep] (splitMax sep n s) = s := by
  induction n with
  | zero => simp [splitMax, join]
  | succ n ih =>
    intro s
    simp only [splitMax]
    split
    next => simp [join]
    next c rest hrest =>
      have hc : c = sep := by
        have hnot := List.head?_dropWhile_not (fun x : Char => decide (x ≠ sep)) s
        rw [hrest] at hnot
        simpa using hnot
      have hparts := ih rest
      unfold join at hparts ⊢
      have hs := List.takeWhile_append_dropWhile (p := fun x : Char => decide (x ≠ sep)) (l := s)
      rw [hrest, hc] at hs
      rw [List.intercalate_cons_of_ne_nil (splitMax_ne_nil sep n rest), hparts, List.append_assoc,
        List.singleton_append]
      exact hs

theorem join_append (sep : Str) {parts parts' : List Str} (h : parts ≠ []) (h' : parts' ≠ []) :
    join sep (parts ++ parts') = join sep parts ++ (sep ++ join sep parts') := by
  induction parts with
  | nil => exact absurd rfl h
  | cons part parts ih =>
    cases parts with
    | nil => simp [join, List.intercalate_cons_of_ne_nil h']
    | cons next parts =>
      have hrest := ih (List.cons_ne_nil next parts)
      unfold join at hrest ⊢
      simp only [List.cons_append, List.intercalate_cons_cons] at hrest ⊢
      rw [hrest]
      simp

theorem join_concat (sep x : Str) {parts : List Str} (h : parts ≠ []) :
    join sep (parts ++ [x]) = join sep parts ++ sep ++ x := by
  induction parts with
  | nil => exact absurd rfl h
  | cons part parts ih =>
    cases parts with
    | nil => simp [join]
    | cons next parts =>
      have hrest := ih (List.cons_ne_nil next parts)
      unfold join at hrest ⊢
      simp only [List.cons_append, List.intercalate_cons_cons] at hrest ⊢
      rw [hrest]
      simp

end Text
