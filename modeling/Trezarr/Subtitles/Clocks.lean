import Trezarr.Lib.Lines
import Trezarr.Lib.RegexGroups
import Trezarr.Subtitles.Srt

/-! The timing line of a SubRip cue: two clocks that can be read in one way. -/
namespace Trezarr
open Text Regex Regex.Pattern

/-- Hours, minutes, seconds and a fraction of any length. -/
inductive IsClock : Str → Prop
  | mk {a b c d e f p x : Char} {fraction : Str} (hours : isDigit a = true ∧ isDigit b = true)
    (minutes : isDigit c = true ∧ isDigit d = true) (seconds : isDigit e = true ∧ isDigit f = true)
    (point : p ∈ (",." : Str)) (hx : isDigit x = true) (hfraction : ∀ y ∈ fraction, isDigit y = true) :
    IsClock (a :: b :: ':' :: c :: d :: ':' :: e :: f :: p :: x :: fraction)

theorem looksAhead_clockRe : clockRe.LooksAhead := by
  simp [clockRe, seqs, digit, oneOf, Pattern.char, plus, LooksAhead]

theorem groupless_clockRe : clockRe.Groupless := by
  simp [clockRe, seqs, digit, oneOf, Pattern.char, plus, Groupless]

theorem mem_rests_clockRe {s r : Str} :
    r ∈ clockRe.rests s ↔ ∃ g, IsClock g ∧ s = g ++ r := by
  simp only [clockRe, seqs, List.foldr, rests_seq, rests_eps, plus, digit, Pattern.char, oneOf,
    List.mem_flatMap, mem_rests_set, mem_rests_star_set, List.mem_singleton, decide_eq_true_eq]
  constructor
  · rintro ⟨_, ⟨a, ha, rfl⟩, _, ⟨b, hb, rfl⟩, _, ⟨_, rfl, rfl⟩, _, ⟨c, hc, rfl⟩, _, ⟨d, hd, rfl⟩, _,
      ⟨_, rfl, rfl⟩, _, ⟨e, he, rfl⟩, _, ⟨f, hf, rfl⟩, _, ⟨p, hp, rfl⟩, _,
      ⟨_, ⟨x, hx, rfl⟩, w, hw, rfl⟩, rfl⟩
    exact ⟨_, .mk ⟨ha, hb⟩ ⟨hc, hd⟩ ⟨he, hf⟩ hp hx hw, rfl⟩
  · rintro ⟨_, ⟨⟨ha, hb⟩, ⟨hc, hd⟩, ⟨he, hf⟩, hp, hx, hw⟩, rfl⟩
    exact ⟨_, ⟨_, ha, rfl⟩, _, ⟨_, hb, rfl⟩, _, ⟨_, rfl, rfl⟩, _, ⟨_, hc, rfl⟩, _, ⟨_, hd, rfl⟩, _,
      ⟨_, rfl, rfl⟩, _, ⟨_, he, rfl⟩, _, ⟨_, hf, rfl⟩, _, ⟨_, hp, rfl⟩, _,
      ⟨_, ⟨_, hx, rfl⟩, _, hw, rfl⟩, rfl⟩

/-- A clock ends where its digits end. -/
theorem IsClock.unique {g g' x x' : Str} (hg : IsClock g) (hg' : IsClock g')
    (hx : ∀ c, x.head? = some c → isDigit c = false)
    (hx' : ∀ c, x'.head? = some c → isDigit c = false) (h : g ++ x = g' ++ x') : g = g' ∧ x = x' := by
  cases hg with
  | mk _ _ _ _ _ hw =>
    cases hg' with
    | mk _ _ _ _ _ hw' =>
      simp only [List.cons_append, List.cons.injEq] at h
      obtain ⟨rfl, rfl, _, rfl, rfl, _, rfl, rfl, rfl, rfl, htail⟩ := h
      obtain ⟨rfl, hrest⟩ := run_unique hw hw' hx hx' htail
      exact ⟨rfl, hrest⟩

theorem IsClock.head {g : Str} (h : IsClock g) (x : Str) :
    ∃ c, (g ++ x).head? = some c ∧ isDigit c = true := by
  cases h with
  | mk hours => exact ⟨_, rfl, hours.1⟩

/-- Two clocks and an arrow, with any white space around the arrow. -/
inductive TcLine : Str → Str → Str → Prop
  | mk {g g' w w' : Str} (hg : IsClock g) (hw : ∀ c ∈ w, isSpace c = true)
    (hw' : ∀ c ∈ w', isSpace c = true) (hg' : IsClock g') :
    TcLine g g' (g ++ (w ++ ("-->" ++ (w' ++ g'))))

theorem TcLine.clocks {g g' s : Str} (h : TcLine g g' s) : IsClock g ∧ IsClock g' := by
  cases h with
  | mk hg _ _ hg' => exact ⟨hg, hg'⟩

theorem mem_results_tcRe {s : Str} {d : Cursor} (h : d ∈ tcRe.results ⟨[], s, []⟩)
    (hend : d.after = []) : ∃ g g', TcLine g g' s ∧ d.groups = [(2, g'), (1, g)] := by
  simp only [tcRe, seqs, List.foldr, results, List.mem_flatMap, List.mem_singleton] at h
  obtain ⟨c₁, h₁, c₂, h₂, c₃, h₃, c₄, h₄, c₅, h₅, rfl⟩ := h
  obtain ⟨g, hs₁, hr₁, hg₁⟩ := mem_results_group looksAhead_clockRe groupless_clockRe h₁
  obtain ⟨hr₂, hg₂⟩ := mem_results (p := star space) trivial trivial h₂
  obtain ⟨hr₃, hg₃⟩ := mem_results (p := lit "-->") (by simp [lit, seqs, Pattern.char, LooksAhead])
    (by simp [lit, seqs, Pattern.char, Groupless]) h₃
  obtain ⟨hr₄, hg₄⟩ := mem_results (p := star space) trivial trivial h₄
  obtain ⟨g', hs₅, hr₅, hg₅⟩ := mem_results_group looksAhead_clockRe groupless_clockRe h₅
  obtain ⟨_, hclock, heq⟩ := mem_rests_clockRe.mp hr₁
  cases List.append_cancel_right (hs₁.symm.trans heq)
  obtain ⟨_, hclock', heq'⟩ := mem_rests_clockRe.mp hr₅
  cases List.append_cancel_right (hs₅.symm.trans heq')
  obtain ⟨w, hw, hs₂⟩ := mem_rests_star_set.mp hr₂
  obtain ⟨w', hw', hs₄⟩ := mem_rests_star_set.mp hr₄
  have hs₃ := mem_rests_lit.mp hr₃
  rw [hend, List.append_nil] at hs₅
  refine ⟨g, g', ?_, by rw [hg₅, hg₄, hg₃, hg₂, hg₁]⟩
  rw [show s = _ from hs₁, hs₂, hs₃, hs₄, hs₅]
  exact .mk hclock hw hw' hclock'

theorem not_isSpace_of_clock {g x : Str} (h : IsClock g) {c : Char} (hc : (g ++ x).head? = some c) :
    isSpace c = false := by
  obtain ⟨d, hd, hdigit⟩ := h.head x
  cases hc.symm.trans hd
  exact not_isSpace_of_isDigit hdigit

/-- The clocks of a line are read in one way. -/
theorem TcLine.unique {s g g' h h' : Str} (hs : TcLine g g' s) (hs' : TcLine h h' s) :
    g = h ∧ g' = h' := by
  have hdigit : ∀ {w x : Str}, (∀ c ∈ w, isSpace c = true) →
      ∀ c, (w ++ ("-->" ++ x)).head? = some c → isDigit c = false := by
    intro w x hw c hc
    cases w with
    | nil =>
      cases hc
      decide
    | cons d w =>
      cases hc
      cases hd : isDigit c with
      | false => rfl
      | true =>
        have hspace := hw c List.mem_cons_self
        rw [not_isSpace_of_isDigit hd] at hspace
        cases hspace
  have harrow : ∀ (x : Str) (c : Char), ("-->" ++ x).head? = some c → isSpace c = false := by
    intro x c hc
    cases hc
    decide
  generalize hline : s = line at hs'
  cases hs with
  | @mk w w' hg hw hw' hg' =>
    cases hs' with
    | @mk v v' hh hv hv' hh' =>
      obtain ⟨rfl, hrest⟩ := hg.unique hh (hdigit hw) (hdigit hv) hline
      obtain ⟨_, hrest⟩ := run_unique hw hv (harrow _) (harrow _) hrest
      have htail := List.append_cancel_left hrest
      obtain ⟨_, hlast⟩ := run_unique hw' hv' (fun c hc => not_isSpace_of_clock (x := []) hg' (by simpa using hc))
        (fun c hc => not_isSpace_of_clock (x := []) hh' (by simpa using hc)) htail
      exact ⟨rfl, hlast⟩

theorem tcLine_of_fullMatch {s : Str} {tc : Found} (h : fullMatch tcRe s = some tc) :
    TcLine (tc.group 1) (tc.group 2) s := by
  obtain ⟨d, hd, rfl⟩ := Option.map_eq_some_iff.mp h
  obtain ⟨g, g', hline, hgroups⟩ :=
    mem_results_tcRe (List.mem_of_find?_eq_some hd) (by simpa using List.find?_some hd)
  simpa [Found.group, hgroups] using hline

theorem fullMatch_of_tcLine {s g g' : Str} (h : TcLine g g' s) :
    ∃ tc, fullMatch tcRe s = some tc ∧ tc.group 1 = g ∧ tc.group 2 = g' := by
  have hrests : [] ∈ tcRe.rests s := by
    cases h with
    | @mk w w' hg hw hw' hg' =>
      simp only [tcRe, seqs, List.foldr, rests_seq, rests_eps, List.mem_flatMap, List.mem_singleton]
      exact ⟨_, mem_rests_clockRe.mpr ⟨g, hg, rfl⟩, _, mem_rests_star_set.mpr ⟨w, hw, rfl⟩, _,
        mem_rests_lit.mpr rfl, _, mem_rests_star_set.mpr ⟨w', hw', rfl⟩, _,
        mem_rests_clockRe.mpr ⟨g', hg', (List.append_nil g').symm⟩, rfl⟩
  rw [← map_results (p := tcRe) (by
    simp [tcRe, seqs, LooksAhead, looksAhead_clockRe, space, lit, Pattern.char]) ⟨[], s, []⟩] at hrests
  obtain ⟨d, hd, hend⟩ := List.mem_map.mp hrests
  cases hfull : fullMatch tcRe s with
  | none =>
    have hnone := Option.map_eq_none_iff.mp hfull
    rw [List.find?_eq_none] at hnone
    exact absurd (hnone d hd) (by simp [hend])
  | some tc =>
    obtain ⟨hone, htwo⟩ := (tcLine_of_fullMatch hfull).unique h
    exact ⟨tc, rfl, hone, htwo⟩

end Trezarr
