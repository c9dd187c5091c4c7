import Trezarr.Lib.RegexSubs
import Trezarr.Translate.Assemble
import Trezarr.Translate.Sentinel

/-! What a viewer sees of a text: its letters and digits outside of tags. -/
namespace Trezarr
open Text Regex Regex.Pattern

theorem tagRe_looksAhead : tagRe.LooksAhead := by
  simp [tagRe, alts, seqs, plus, char, noneOf, oneOf, LooksAhead]

theorem tagRe_consumes : tagRe.Consumes := by
  intro s r hr
  rcases List.mem_append.mp hr with hr | hr
  · exact consumes_seq _ (consumes_set _) s r hr
  · rcases List.mem_append.mp hr with hr | hr
    · exact consumes_seq _ (consumes_set _) s r hr
    · exact consumes_seq _ (consumes_set _) s r hr

/-- A text with a tag at its start, and what is after it. -/
def TagAt (s r : Str) : Prop :=
  (∃ w, w ≠ [] ∧ '>' ∉ w ∧ s = '<' :: (w ++ '>' :: r)) ∨
  (∃ w, w ≠ [] ∧ '\x7d' ∉ w ∧ s = '\x7b' :: '\\' :: (w ++ '\x7d' :: r)) ∨
  ∃ c ∈ ("Nnh" : Str), s = '\\' :: c :: r

theorem mem_rests_char {c : Char} {s r : Str} : r ∈ (char c).rests s ↔ s = c :: r := by
  rw [show char c = set (· = c) from rfl, mem_rests_set]
  constructor
  · rintro ⟨d, hd, rfl⟩
    rw [of_decide_eq_true hd]
  · rintro rfl
    exact ⟨c, decide_eq_true rfl, rfl⟩

theorem mem_rests_seq {a b : Pattern} {s r : Str} :
    r ∈ (seq a b).rests s ↔ ∃ t ∈ a.rests s, r ∈ b.rests t := by
  rw [rests_seq, List.mem_flatMap]

/-- Up to the character that ends it, and not without another before. -/
theorem mem_rests_until {stop : Str} {b : Char} {s r : Str} (hstop : ∀ c, c ∈ stop ↔ c = b) :
    r ∈ (seq (plus (noneOf stop)) (seq (char b) eps)).rests s ↔
      ∃ w, w ≠ [] ∧ b ∉ w ∧ s = w ++ b :: r := by
  have hin : ∀ c, (decide (c ∉ stop) = true) ↔ c ≠ b := by
    intro c
    rw [decide_eq_true_eq, hstop]
  rw [mem_rests_seq]
  constructor
  · rintro ⟨t, ht, hr⟩
    obtain ⟨u, hu, hstar⟩ := mem_rests_seq.mp ht
    obtain ⟨c, hc, rfl⟩ := mem_rests_set.mp hu
    obtain ⟨w, hw, rfl⟩ := mem_rests_star_set.mp hstar
    obtain ⟨v, hv, hr⟩ := mem_rests_seq.mp hr
    cases List.mem_singleton.mp hr
    rw [mem_rests_char.mp hv]
    refine ⟨c :: w, List.cons_ne_nil c w, ?_, rfl⟩
    intro hmem
    rcases List.mem_cons.mp hmem with heq | hmem
    · exact (hin c).mp hc heq.symm
    · exact (hin b).mp (hw b hmem) rfl
  · rintro ⟨w, hne, hw, rfl⟩
    cases w with
    | nil => exact absurd rfl hne
    | cons c w =>
      refine ⟨b :: r, mem_rests_seq.mpr ⟨w ++ b :: r, mem_rests_set.mpr ⟨c, ?_, rfl⟩, ?_⟩, ?_⟩
      · exact (hin c).mpr fun heq => hw (heq ▸ List.mem_cons_self)
      · refine mem_rests_star_set.mpr ⟨w, fun x hx => (hin x).mpr fun heq => ?_, rfl⟩
        exact hw (heq ▸ List.mem_cons_of_mem c hx)
      · exact mem_rests_seq.mpr ⟨r, mem_rests_char.mpr rfl, List.mem_singleton.mpr rfl⟩

theorem mem_rests_tagRe {s r : Str} : r ∈ tagRe.rests s ↔ TagAt s r := by
  have hangle : ∀ c, c ∈ (">" : Str) ↔ c = '>' := fun c => List.mem_singleton
  have hbrace : ∀ c, c ∈ ("\x7d" : Str) ↔ c = '\x7d' := fun c => List.mem_singleton
  have hsplit : r ∈ tagRe.rests s ↔
      r ∈ (seq (char '<') (seq (plus (noneOf ">")) (seq (char '>') eps))).rests s ∨
      r ∈ (seq (char '\x7b') (seq (char '\\') (seq (plus (noneOf "\x7d"))
        (seq (char '\x7d') eps)))).rests s ∨
      r ∈ (seq (char '\\') (oneOf "Nnh")).rests s := by
    rw [← List.mem_append, ← List.mem_append]
    rfl
  rw [hsplit]
  refine or_congr ?_ (or_congr ?_ ?_)
  · rw [mem_rests_seq]
    constructor
    · rintro ⟨t, ht, hr⟩
      obtain ⟨w, hne, hw, rfl⟩ := (mem_rests_until hangle).mp hr
      exact ⟨w, hne, hw, mem_rests_char.mp ht⟩
    · rintro ⟨w, hne, hw, rfl⟩
      exact ⟨_, mem_rests_char.mpr rfl, (mem_rests_until hangle).mpr ⟨w, hne, hw, rfl⟩⟩
  · rw [mem_rests_seq]
    constructor
    · rintro ⟨t, ht, hr⟩
      obtain ⟨u, hu, hr⟩ := mem_rests_seq.mp hr
      obtain ⟨w, hne, hw, rfl⟩ := (mem_rests_until hbrace).mp hr
      rw [mem_rests_char.mp hu] at ht
      exact ⟨w, hne, hw, mem_rests_char.mp ht⟩
    · rintro ⟨w, hne, hw, rfl⟩
      refine ⟨_, mem_rests_char.mpr rfl, mem_rests_seq.mpr ⟨_, mem_rests_char.mpr rfl, ?_⟩⟩
      exact (mem_rests_until hbrace).mpr ⟨w, hne, hw, rfl⟩
  · rw [mem_rests_seq]
    constructor
    · rintro ⟨t, ht, hr⟩
      obtain ⟨c, hc, rfl⟩ := mem_rests_set.mp hr
      exact ⟨c, of_decide_eq_true hc, mem_rests_char.mp ht⟩
    · rintro ⟨c, hc, rfl⟩
      exact ⟨c :: r, mem_rests_char.mpr rfl, mem_rests_set.mpr ⟨c, decide_eq_true hc, rfl⟩⟩

theorem rest_unique {b : Char} {w w' r r' : Str} (hw : b ∉ w) (hw' : b ∉ w')
    (h : w ++ b :: r = w' ++ b :: r') : r = r' := by
  induction w generalizing w' with
  | nil =>
    cases w' with
    | nil => exact (List.cons.inj h).2
    | cons c w' =>
      rw [(List.cons.inj h).1] at hw'
      exact absurd List.mem_cons_self hw'
  | cons c w ih =>
    cases w' with
    | nil =>
      rw [← (List.cons.inj h).1] at hw
      exact absurd List.mem_cons_self hw
    | cons c' w' =>
      exact ih (fun hmem => hw (List.mem_cons_of_mem c hmem))
        (fun hmem => hw' (List.mem_cons_of_mem c' hmem)) (List.cons.inj h).2

/-- A tag ends where its first closing character is. -/
theorem TagAt.unique {s r r' : Str} (h : TagAt s r) (h' : TagAt s r') : r = r' := by
  rcases h with ⟨w, _, hw, rfl⟩ | ⟨w, _, hw, rfl⟩ | ⟨c, _, rfl⟩
  · rcases h' with ⟨w', _, hw', heq⟩ | ⟨w', _, _, heq⟩ | ⟨c', _, heq⟩
    · exact rest_unique hw hw' (List.cons.inj heq).2
    · cases heq
    · cases heq
  · rcases h' with ⟨w', _, _, heq⟩ | ⟨w', _, hw', heq⟩ | ⟨c', _, heq⟩
    · cases heq
    · exact rest_unique hw hw' (List.cons.inj (List.cons.inj heq).2).2
    · cases heq
  · rcases h' with ⟨w', _, _, heq⟩ | ⟨w', _, _, heq⟩ | ⟨c', _, heq⟩
    · cases heq
    · cases heq
    · exact (List.cons.inj (List.cons.inj heq).2).2

end Trezarr
