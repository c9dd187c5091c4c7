import Trezarr.Lib.RegexRests
import Trezarr.Subtitles.Srt

/-! The blank lines that separate cues, and the pieces a text falls into between them. -/
namespace Trezarr
open Text Regex Regex.Pattern

def newline? : Str → Option Str
  | '\n' :: s => some s
  | '\r' :: '\n' :: s => some s
  | _ => none

def isSpaceOrTab (c : Char) : Bool := c ∈ (" \t" : Str)

/-- What is after a line of spaces and tabs. -/
def blankLine? (s : Str) : Option Str := newline? (s.dropWhile isSpaceOrTab)

theorem rests_newlineRe (s : Str) : newlineRe.rests s = (newline? s).toList := by
  match s with
  | [] => rfl
  | [c] =>
    by_cases hn : c = '\n'
    · subst hn
      rfl
    · by_cases hr : c = '\r'
      · subst hr
        rfl
      · simp [newlineRe, opt, Pattern.char, newline?, hn, hr]
  | c :: d :: s =>
    by_cases hn : c = '\n'
    · subst hn
      simp [newlineRe, opt, Pattern.char, newline?]
    · by_cases hr : c = '\r'
      · subst hr
        by_cases hd : d = '\n'
        · subst hd
          simp [newlineRe, opt, Pattern.char, newline?]
        · simp [newlineRe, opt, Pattern.char, newline?, hd]
      · simp [newlineRe, opt, Pattern.char, newline?, hn, hr]

theorem newline?_blank {c : Char} (h : isSpaceOrTab c = true) (s : Str) : newline? (c :: s) = none := by
  have hc : c = ' ' ∨ c = '\t' := by simpa [isSpaceOrTab] using h
  rcases hc with rfl | rfl <;> rfl

theorem rests_blankLineRe (s : Str) : blankLineRe.rests s = (blankLine? s).toList := by
  have hstop : ∀ c s, isSpaceOrTab c = true → newlineRe.rests (c :: s) = [] := by
    intro c s hc
    rw [rests_newlineRe, newline?_blank hc]
    rfl
  have hrests := rests_seq_star_set hstop s
  rw [rests_newlineRe] at hrests
  exact hrests

inductive IsNewline : Str → Prop
  | lf : IsNewline ['\n']
  | crlf : IsNewline ['\r', '\n']

theorem isNewline_detectLineEnding (text : Str) : IsNewline (detectLineEnding text) := by
  unfold detectLineEnding
  split
  · exact .crlf
  · exact .lf

theorem newline?_some {s r : Str} : newline? s = some r ↔ ∃ nl, IsNewline nl ∧ s = nl ++ r := by
  constructor
  · intro h
    unfold newline? at h
    split at h
    · cases h
      exact ⟨_, .lf, rfl⟩
    · cases h
      exact ⟨_, .crlf, rfl⟩
    · cases h
  · rintro ⟨nl, hnl, rfl⟩
    cases hnl <;> rfl

/-- A line of spaces and tabs, with its end. -/
def IsBlankLine (l : Str) : Prop :=
  ∃ w nl, (∀ c ∈ w, isSpaceOrTab c = true) ∧ IsNewline nl ∧ l = w ++ nl

theorem IsNewline.not_blank {nl : Str} (h : IsNewline nl) (s : Str) :
    (nl ++ s).dropWhile isSpaceOrTab = nl ++ s := by
  cases h <;> simp [isSpaceOrTab]

theorem blankLine?_some {s r : Str} :
    blankLine? s = some r ↔ ∃ l, IsBlankLine l ∧ s = l ++ r := by
  unfold blankLine?
  rw [newline?_some]
  constructor
  · rintro ⟨nl, hnl, hs⟩
    refine ⟨s.takeWhile isSpaceOrTab ++ nl, ⟨_, nl, fun c hc => List.mem_takeWhile_imp hc, hnl, rfl⟩, ?_⟩
    rw [List.append_assoc, ← hs, List.takeWhile_append_dropWhile]
  · rintro ⟨l, ⟨w, nl, hw, hnl, rfl⟩, rfl⟩
    refine ⟨nl, hnl, ?_⟩
    rw [List.append_assoc, List.dropWhile_append_of_pos hw, hnl.not_blank]

inductive BlankLines : Str → Prop
  | nil : BlankLines []
  | cons {l s : Str} (hl : IsBlankLine l) (hs : BlankLines s) : BlankLines (l ++ s)

/-- A line end and the blank lines after it. -/
def IsSep (S : Str) : Prop := ∃ nl B, IsNewline nl ∧ BlankLines B ∧ B ≠ [] ∧ S = nl ++ B

theorem consumes_newline {s r : Str} (h : newline? s = some r) : r.length < s.length := by
  obtain ⟨nl, hnl, rfl⟩ := newline?_some.mp h
  cases hnl with
  | lf => simp
  | crlf =>
    simp only [List.length_append, List.length_cons]
    omega

theorem consumes_blankLine {s r : Str} (h : blankLine? s = some r) : r.length < s.length :=
  (consumes_newline h).trans_le (List.length_dropWhile_le isSpaceOrTab s)

theorem consumes_blankLineRe : blankLineRe.Consumes := by
  intro s r hr
  rw [rests_blankLineRe, Option.mem_toList] at hr
  exact consumes_blankLine hr

/-- The preferred end of a run of blank lines is the last one. -/
theorem head_star_blankLineRe {s r : Str} :
    ((star blankLineRe).rests s).head? = some r ↔
      ∃ B, BlankLines B ∧ s = B ++ r ∧ blankLine? r = none := by
  induction hn : s.length using Nat.strong_induction_on generalizing s with
  | _ n ih =>
    rw [rests_star consumes_blankLineRe, rests_blankLineRe]
    cases hblank : blankLine? s with
    | none =>
      simp only [Option.toList_none, List.flatMap_nil, List.nil_append, List.head?_cons,
        Option.some.injEq]
      constructor
      · rintro rfl
        exact ⟨[], .nil, rfl, hblank⟩
      · rintro ⟨B, hB, hs, _⟩
        cases hB with
        | nil => exact hs
        | cons hl hB =>
          rw [hs, List.append_assoc, blankLine?_some.mpr ⟨_, hl, rfl⟩] at hblank
          cases hblank
    | some t =>
      have hlt := consumes_blankLine hblank
      have hne : (star blankLineRe).rests t ≠ [] := by
        rw [rests_star consumes_blankLineRe]
        simp
      simp only [Option.toList_some, List.flatMap_cons, List.flatMap_nil, List.append_nil]
      rw [List.head?_append_of_ne_nil _ hne, ih t.length (hn ▸ hlt) rfl]
      constructor
      · rintro ⟨B, hB, rfl, hr⟩
        obtain ⟨l, hl, rfl⟩ := blankLine?_some.mp hblank
        exact ⟨l ++ B, .cons hl hB, (List.append_assoc l B r).symm, hr⟩
      · rintro ⟨B, hB, rfl, hr⟩
        cases hB with
        | nil =>
          rw [List.nil_append, hr] at hblank
          cases hblank
        | @cons l B hl hB =>
          rw [List.append_assoc, blankLine?_some.mpr ⟨l, hl, rfl⟩] at hblank
          cases hblank
          exact ⟨B, hB, rfl, hr⟩

theorem rests_sepRe (s : Str) : sepRe.rests s =
    (((newline? s).bind blankLine?).map (star blankLineRe).rests).getD [] := by
  simp only [sepRe, plus, rests_seq, rests_newlineRe]
  cases newline? s with
  | none => rfl
  | some t => cases hblank : blankLine? t <;> simp [rests_blankLineRe, hblank]

/-- A separator starts where a line ends and a blank line follows. -/
theorem rests_sepRe_ne_nil {s : Str} : sepRe.rests s ≠ [] ↔
    ∃ nl l r, IsNewline nl ∧ IsBlankLine l ∧ s = nl ++ (l ++ r) := by
  rw [rests_sepRe]
  constructor
  · intro h
    cases hnl : newline? s with
    | none => simp [hnl] at h
    | some t =>
      cases hblank : blankLine? t with
      | none => simp [hnl, hblank] at h
      | some r =>
        obtain ⟨nl, hnewline, rfl⟩ := newline?_some.mp hnl
        obtain ⟨l, hline, rfl⟩ := blankLine?_some.mp hblank
        exact ⟨nl, l, r, hnewline, hline, rfl⟩
  · rintro ⟨nl, l, r, hnewline, hline, rfl⟩
    rw [newline?_some.mpr ⟨nl, hnewline, rfl⟩, Option.bind_some,
      blankLine?_some.mpr ⟨l, hline, rfl⟩, Option.map_some, Option.getD_some,
      rests_star consumes_blankLineRe]
    simp

theorem head_sepRe {s r : Str} : (sepRe.rests s).head? = some r ↔
    ∃ S, IsSep S ∧ s = S ++ r ∧ blankLine? r = none := by
  rw [rests_sepRe]
  constructor
  · intro h
    cases hnl : newline? s with
    | none => simp [hnl] at h
    | some t =>
      cases hblank : blankLine? t with
      | none => simp [hnl, hblank] at h
      | some u =>
        simp only [hnl, hblank, Option.bind_some, Option.map_some, Option.getD_some] at h
        obtain ⟨B, hB, rfl, hr⟩ := head_star_blankLineRe.mp h
        obtain ⟨nl, hnewline, rfl⟩ := newline?_some.mp hnl
        obtain ⟨l, hline, rfl⟩ := blankLine?_some.mp hblank
        refine ⟨nl ++ (l ++ B), ⟨nl, l ++ B, hnewline, .cons hline hB, ?_, rfl⟩, by simp, hr⟩
        obtain ⟨w, nl', _, hnl', rfl⟩ := hline
        cases hnl' <;> simp
  · rintro ⟨S, ⟨nl, B, hnewline, hB, hne, rfl⟩, rfl, hr⟩
    cases hB with
    | nil => exact absurd rfl hne
    | @cons l B hl hB =>
      have hnl : newline? (nl ++ (l ++ B) ++ r) = some (l ++ (B ++ r)) :=
        newline?_some.mpr ⟨nl, hnewline, by simp⟩
      have hblank : blankLine? (l ++ (B ++ r)) = some (B ++ r) := blankLine?_some.mpr ⟨l, hl, rfl⟩
      rw [hnl, Option.bind_some, hblank, Option.map_some, Option.getD_some]
      exact head_star_blankLineRe.mpr ⟨B, hB, rfl, hr⟩

theorem looksAhead_sepRe : sepRe.LooksAhead := by
  simp [sepRe, newlineRe, blankLineRe, plus, opt, Pattern.char, oneOf, LooksAhead]

theorem consumes_sepRe : sepRe.Consumes := by
  apply consumes_seq
  intro s r hr
  rw [rests_newlineRe, Option.mem_toList] at hr
  exact consumes_newline hr

@[simp] theorem rests_sepRe_nil : sepRe.rests [] = [] := rfl

theorem IsNewline.count {nl : Str} (h : IsNewline nl) : nl.count '\n' = 1 := by
  cases h <;> rfl

theorem IsNewline.ends {nl : Str} (h : IsNewline nl) : ∃ front, nl = front ++ ['\n'] := by
  cases h with
  | lf => exact ⟨[], rfl⟩
  | crlf => exact ⟨['\r'], rfl⟩

theorem IsBlankLine.count {l : Str} (h : IsBlankLine l) : l.count '\n' = 1 := by
  obtain ⟨w, nl, hw, hnl, rfl⟩ := h
  have hnone : w.count '\n' = 0 := by
    rw [List.count_eq_zero]
    intro hmem
    exact absurd (hw _ hmem) (by decide)
  rw [List.count_append, hnone, hnl.count]

theorem IsBlankLine.ends {l : Str} (h : IsBlankLine l) : ∃ front, l = front ++ ['\n'] := by
  obtain ⟨w, nl, _, hnl, rfl⟩ := h
  obtain ⟨front, rfl⟩ := hnl.ends
  exact ⟨w ++ front, (List.append_assoc w front _).symm⟩

theorem IsSep.count {S : Str} (h : IsSep S) : 2 ≤ S.count '\n' := by
  obtain ⟨nl, B, hnl, hB, hne, rfl⟩ := h
  cases hB with
  | nil => exact absurd rfl hne
  | cons hl hB =>
    rw [List.count_append, List.count_append, hnl.count, hl.count]
    omega

/-- A run of lines lies in whatever front of the text has as many line ends. -/
theorem prefix_of_count {a b x y : Str} (h : a ++ b = x ++ y)
    (hend : ∃ front, a = front ++ ['\n']) (hcount : a.count '\n' ≤ x.count '\n') :
    ∃ z, x = a ++ z := by
  rcases List.append_eq_append_iff.mp h with ⟨z, rfl, _⟩ | ⟨z, rfl, _⟩
  · exact ⟨z, rfl⟩
  · rcases List.eq_nil_or_concat z with rfl | ⟨z', c, rfl⟩
    · exact ⟨[], by simp⟩
    · obtain ⟨front, hfront⟩ := hend
      have hc : c = '\n' := by
        have hlast := congrArg List.getLast? hfront
        simpa using hlast
      subst hc
      simp only [List.concat_eq_append, List.count_append, List.count_singleton_self] at hcount
      omega

theorem rests_sepRe_append {u S : Str} (r : Str) (hS : 2 ≤ S.count '\n') :
    sepRe.rests (u ++ (S ++ r)) = [] ↔ sepRe.rests (u ++ S) = [] := by
  rw [← not_iff_not]
  constructor
  · intro h
    obtain ⟨nl, l, t, hnl, hl, heq⟩ := rests_sepRe_ne_nil.mp h
    obtain ⟨front, hfront⟩ := hl.ends
    have hcount : (nl ++ l).count '\n' ≤ (u ++ S).count '\n' := by
      rw [List.count_append, List.count_append, hnl.count, hl.count]
      omega
    obtain ⟨z, hz⟩ := prefix_of_count (a := nl ++ l) (b := t) (x := u ++ S) (y := r)
      (by simpa using heq.symm) ⟨nl ++ front, by rw [hfront, List.append_assoc]⟩ hcount
    exact rests_sepRe_ne_nil.mpr ⟨nl, l, z, hnl, hl, by simpa using hz⟩
  · intro h
    obtain ⟨nl, l, t, hnl, hl, heq⟩ := rests_sepRe_ne_nil.mp h
    refine rests_sepRe_ne_nil.mpr ⟨nl, l, t ++ r, hnl, hl, ?_⟩
    rw [← List.append_assoc u, heq]
    simp

theorem noMatchIn_sep {t S : Str} (r : Str) (hS : IsSep S) :
    sepRe.NoMatchIn t (S ++ r) ↔ sepRe.NoMatchIn t S := by
  induction t with
  | nil => exact Iff.rfl
  | cons c t ih =>
    have hhere := rests_sepRe_append (u := c :: t) r hS.count
    simp only [NoMatchIn, ih, hhere]

/-- The blocks of a text, each with the separator after it; the last one has none. -/
inductive Pieces : Str → List (Str × Str) → Prop
  | last {t : Str} (hno : sepRe.NoMatchIn t []) : Pieces t [(t, [])]
  | more {t S r : Str} {ps : List (Str × Str)} (hno : sepRe.NoMatchIn t S) (hS : IsSep S)
    (hr : blankLine? r = none) (hps : Pieces r ps) : Pieces (t ++ (S ++ r)) ((t, S) :: ps)

theorem firstMatch_sep {t S r : Str} (hno : sepRe.NoMatchIn t S) (hS : IsSep S)
    (hr : blankLine? r = none) : sepRe.FirstMatch (t ++ (S ++ r)) t S r :=
  ⟨rfl, (noMatchIn_sep r hS).mpr hno, head_sepRe.mpr ⟨S, hS, rfl, hr⟩⟩

theorem split_last {t : Str} (hno : sepRe.NoMatchIn t []) : split sepRe t = [t] :=
  split_of_none looksAhead_sepRe hno rests_sepRe_nil

theorem split_more {t S r : Str} (hno : sepRe.NoMatchIn t S) (hS : IsSep S)
    (hr : blankLine? r = none) : split sepRe (t ++ (S ++ r)) = t :: S :: split sepRe r :=
  split_of_firstMatch looksAhead_sepRe consumes_sepRe (firstMatch_sep hno hS hr)

theorem exists_pieces (s : Str) : ∃ ps, Pieces s ps := by
  induction hn : s.length using Nat.strong_induction_on generalizing s with
  | _ n ih =>
    rcases noMatch_or_firstMatch looksAhead_sepRe s with hno | ⟨t, m, r, hfirst⟩
    · exact ⟨_, .last hno⟩
    · obtain ⟨S, hS, hm, hr⟩ := head_sepRe.mp hfirst.here
      cases List.append_cancel_right hm
      have hlt := consumes_sepRe _ _ (List.mem_of_mem_head? hfirst.here)
      have hlen := congrArg List.length hfirst.eq
      simp only [List.length_append] at hlen hlt
      obtain ⟨ps, hps⟩ := ih r.length (by omega) r rfl
      rw [hfirst.eq]
      exact ⟨_, .more ((noMatchIn_sep r hS).mp hfirst.before) hS hr hps⟩

theorem IsBlankLine.blankLine? {l : Str} (h : IsBlankLine l) (r : Str) :
    Trezarr.blankLine? (l ++ r) = some r :=
  blankLine?_some.mpr ⟨l, h, rfl⟩

theorem BlankLines.append {B C : Str} (hB : BlankLines B) (hC : BlankLines C) :
    BlankLines (B ++ C) := by
  induction hB with
  | nil => exact hC
  | cons hl _ ih =>
    rw [List.append_assoc]
    exact .cons hl ih

theorem BlankLines.single {l : Str} (hl : IsBlankLine l) : BlankLines l := by
  simpa using BlankLines.cons hl .nil

theorem IsNewline.blankLine {nl : Str} (h : IsNewline nl) : IsBlankLine nl :=
  ⟨[], nl, by simp, h, rfl⟩

theorem IsSep.blankLines {S : Str} (h : IsSep S) : BlankLines S := by
  obtain ⟨nl, B, hnl, hB, _, rfl⟩ := h
  exact .cons hnl.blankLine hB

theorem IsSep.ne_nil {S : Str} (h : IsSep S) : S ≠ [] := by
  obtain ⟨nl, B, hnl, _, _, rfl⟩ := h
  cases hnl <;> simp

theorem blankLine?_blankLines {B : Str} (hB : BlankLines B) (hne : B ≠ []) (r : Str) :
    blankLine? (B ++ r) ≠ none := by
  cases hB with
  | nil => exact absurd rfl hne
  | cons hl hB =>
    rw [List.append_assoc, hl.blankLine?]
    exact Option.some_ne_none _

/-- The run of blank lines a text starts with contains every other one. -/
theorem BlankLines.prefix_of_run {B x : Str} (hB : BlankLines B) : ∀ {B' r : Str},
    BlankLines B' → blankLine? r = none → B ++ x = B' ++ r → ∃ z, x = z ++ r ∧ B' = B ++ z := by
  induction hB with
  | nil => exact fun {B' r} _ _ heq => ⟨B', heq, rfl⟩
  | @cons l s hl hs ih =>
    intro B' r hB' hr heq
    cases hB' with
    | nil =>
      rw [List.nil_append, List.append_assoc] at heq
      rw [← heq, hl.blankLine?] at hr
      cases hr
    | @cons l' s' hl' hs' =>
      rw [List.append_assoc, List.append_assoc] at heq
      have hhere := hl.blankLine? (s ++ x)
      rw [heq, hl'.blankLine?] at hhere
      have htail : s ++ x = s' ++ r := (Option.some.inj hhere).symm
      have hline : l = l' := by
        rw [htail] at heq
        exact List.append_cancel_right heq
      obtain ⟨z, hz, hs'z⟩ := ih hs' hr htail
      exact ⟨z, hz, by rw [hs'z, hline, List.append_assoc]⟩

theorem isSpace_of_isSpaceOrTab {c : Char} (h : isSpaceOrTab c = true) : isSpace c = true := by
  have hc : c = ' ' ∨ c = '\t' := by simpa [isSpaceOrTab] using h
  rcases hc with rfl | rfl <;> decide

theorem IsBlankLine.isSpace {l : Str} (h : IsBlankLine l) : ∀ c ∈ l, isSpace c = true := by
  obtain ⟨w, nl, hw, hnl, rfl⟩ := h
  intro c hc
  rcases List.mem_append.mp hc with hc | hc
  · exact isSpace_of_isSpaceOrTab (hw c hc)
  · cases hnl with
    | lf =>
      rw [List.mem_singleton.mp hc]
      decide
    | crlf =>
      have hc' : c = '\r' ∨ c = '\n' := by simpa using hc
      rcases hc' with rfl | rfl <;> decide

theorem BlankLines.isSpace {B : Str} (h : BlankLines B) : ∀ c ∈ B, isSpace c = true := by
  induction h with
  | nil => simp
  | cons hl _ ih =>
    intro c hc
    rcases List.mem_append.mp hc with hc | hc
    · exact hl.isSpace c hc
    · exact ih c hc

theorem mem_star_blankLineRe {s r : Str} :
    r ∈ (star blankLineRe).rests s ↔ ∃ B, BlankLines B ∧ s = B ++ r := by
  induction hn : s.length using Nat.strong_induction_on generalizing s with
  | _ n ih =>
    rw [rests_star consumes_blankLineRe, rests_blankLineRe, List.mem_append, List.mem_flatMap,
      List.mem_singleton]
    constructor
    · rintro (⟨t, ht, hr⟩ | rfl)
      · rw [Option.mem_toList] at ht
        obtain ⟨B, hB, rfl⟩ := (ih t.length (hn ▸ consumes_blankLine ht) rfl).mp hr
        obtain ⟨l, hl, rfl⟩ := blankLine?_some.mp ht
        exact ⟨l ++ B, .cons hl hB, (List.append_assoc l B r).symm⟩
      · exact ⟨[], .nil, rfl⟩
    · rintro ⟨B, hB, rfl⟩
      cases hB with
      | nil => exact .inr rfl
      | @cons l B hl hB =>
        have hblank : blankLine? (l ++ B ++ r) = some (B ++ r) :=
          blankLine?_some.mpr ⟨l, hl, List.append_assoc l B r⟩
        left
        refine ⟨B ++ r, Option.mem_toList.mpr hblank, ?_⟩
        exact (ih _ (hn ▸ consumes_blankLine hblank) rfl).mpr ⟨B, hB, rfl⟩

/-- A text and the blank lines it starts with. -/
theorem exists_run (s : Str) : ∃ B r, BlankLines B ∧ s = B ++ r ∧ blankLine? r = none := by
  have hmem : s ∈ (star blankLineRe).rests s := mem_star_blankLineRe.mpr ⟨[], .nil, rfl⟩
  cases hhead : ((star blankLineRe).rests s).head? with
  | none =>
    rw [List.head?_eq_none_iff.mp hhead] at hmem
    cases hmem
  | some r =>
    obtain ⟨B, hB, hs, hr⟩ := head_star_blankLineRe.mp hhead
    exact ⟨B, r, hB, hs, hr⟩

theorem rests_finish (s : Str) :
    finish.rests s = if s = [] ∨ s = ['\n'] then [s] else [] := rfl

theorem looksAhead_trailRe : trailRe.LooksAhead := by
  simp [trailRe, newlineRe, blankLineRe, plus, opt, Pattern.char, oneOf, LooksAhead]

theorem rests_trailRe (s : Str) : trailRe.rests s =
    (blankLine? s).toList.flatMap fun t => ((star blankLineRe).rests t).flatMap finish.rests := by
  simp [trailRe, plus, rests_blankLineRe, List.flatMap_assoc]

/-- The blank lines at the end of a text reach to its end. -/
theorem head_trailRe {s r : Str} : (trailRe.rests s).head? = some r ↔
    r = [] ∧ BlankLines s ∧ s ≠ [] := by
  have hend : ∀ {s : Str}, BlankLines s → s ≠ [] → (trailRe.rests s).head? = some [] := by
    intro s hs hne
    cases hs with
    | nil => exact absurd rfl hne
    | @cons l t hl ht =>
      have hhead : ((star blankLineRe).rests t).head? = some [] :=
        head_star_blankLineRe.mpr ⟨t, ht, (List.append_nil t).symm, rfl⟩
      rw [rests_trailRe, hl.blankLine?]
      cases hrests : (star blankLineRe).rests t with
      | nil => simp [hrests] at hhead
      | cons u us =>
        rw [hrests] at hhead
        cases hhead
        simp [rests_finish, hrests]
  constructor
  · intro h
    have hmem := List.mem_of_mem_head? h
    rw [rests_trailRe, List.mem_flatMap] at hmem
    obtain ⟨t, ht, hr⟩ := hmem
    rw [Option.mem_toList] at ht
    obtain ⟨u, hu, hr⟩ := List.mem_flatMap.mp hr
    rw [rests_finish] at hr
    split at hr
    next hu' =>
      obtain ⟨l, hl, rfl⟩ := blankLine?_some.mp ht
      obtain ⟨B, hB, rfl⟩ := mem_star_blankLineRe.mp hu
      have hlines : BlankLines (l ++ (B ++ u)) := by
        refine .cons hl (hB.append ?_)
        rcases hu' with rfl | rfl
        · exact .nil
        · exact .single IsNewline.lf.blankLine
      have hne : l ++ (B ++ u) ≠ [] := by
        intro hnil
        rw [hnil] at ht
        cases ht
      rw [hend hlines hne] at h
      exact ⟨(Option.some.inj h).symm, hlines, hne⟩
    next => cases hr
  · rintro ⟨rfl, hs, hne⟩
    exact hend hs hne

end Trezarr
