import Trezarr.Lib.Regex

/-! The preferred match of a pattern, put together from those of its parts. -/
namespace Regex
open Text

namespace Pattern

variable {a b : Pattern} {p : Char → Bool} {c d e : Cursor} {n : ℕ}

/-- The match that is tried first. -/
def first (p : Pattern) (c : Cursor) : Option Cursor := (p.results c).head?

@[simp] theorem first_eps : eps.first c = some c := rfl

theorem first_set {x : Char} {rest : Str} (hafter : c.after = x :: rest) (hx : p x = true) :
    (set p).first c = some ⟨x :: c.before, rest, c.groups⟩ := by
  simp [first, results, hafter, hx]

theorem first_char {x : Char} {rest : Str} (hafter : c.after = x :: rest) :
    (char x).first c = some ⟨x :: c.before, rest, c.groups⟩ :=
  first_set hafter (decide_eq_true rfl)

theorem first_set_none {x : Char} {rest : Str} (hafter : c.after = x :: rest)
    (hx : p x = false) : (set p).first c = none := by
  simp [first, results, hafter, hx]

theorem first_seq (ha : a.first c = some d) (hb : b.first d = some e) :
    (seq a b).first c = some e := by
  obtain ⟨ds, hds⟩ := List.head?_eq_some_iff.mp ha
  obtain ⟨es, hes⟩ := List.head?_eq_some_iff.mp hb
  simp [first, results, hds, hes]

/-- A sequence is followed part by part to what is known of its end. -/
theorem exists_first_seq {Q : Cursor → Prop} (ha : a.first c = some d)
    (hb : ∃ e, b.first d = some e ∧ Q e) : ∃ e, (seq a b).first c = some e ∧ Q e := by
  obtain ⟨e, he, hq⟩ := hb
  exact ⟨e, first_seq ha he, hq⟩

theorem first_alt_left (ha : a.first c = some d) : (alt a b).first c = some d := by
  obtain ⟨ds, hds⟩ := List.head?_eq_some_iff.mp ha
  simp [first, results, hds]

theorem first_alt_right (ha : a.first c = none) : (alt a b).first c = b.first c := by
  simp [first, results, List.head?_eq_none_iff.mp ha]

theorem first_group {m : Str} (ha : a.first c = some d) (hm : c.after = m ++ d.after) :
    (group n a).first c = some { d with groups := (n, m) :: d.groups } := by
  obtain ⟨ds, hds⟩ := List.head?_eq_some_iff.mp ha
  simp [first, results, hds, Cursor.upTo, hm]

/-- A loop over a set takes all it can. -/
theorem head?_iterate_set : ∀ {n : ℕ} {c : Cursor}, c.after.length ≤ n →
    (iterate (set p).results n c).head? =
      some ⟨(c.after.takeWhile p).reverse ++ c.before, c.after.dropWhile p, c.groups⟩ := by
  intro n
  induction n with
  | zero =>
    intro c hlength
    obtain ⟨before, after, groups⟩ := c
    cases List.eq_nil_of_length_eq_zero (Nat.le_zero.mp hlength)
    rfl
  | succ n ih =>
    intro c hlength
    obtain ⟨before, after, groups⟩ := c
    cases after with
    | nil => rfl
    | cons x rest =>
      have hset : (set p).results ⟨before, x :: rest, groups⟩ =
          if p x then [⟨x :: before, rest, groups⟩] else [] := rfl
      by_cases hx : p x = true
      · have hrest := ih (c := ⟨x :: before, rest, groups⟩) (by simpa using hlength)
        obtain ⟨ds, hds⟩ := List.head?_eq_some_iff.mp hrest
        rw [iterate, hset, if_pos hx]
        simp [hx, hds]
      · rw [iterate, hset, if_neg hx]
        simp [hx]

theorem first_star_set : (star (set p)).first c =
    some ⟨(c.after.takeWhile p).reverse ++ c.before, c.after.dropWhile p, c.groups⟩ :=
  head?_iterate_set le_rfl

/-- And one character at least. -/
theorem first_plus_set {x : Char} {rest : Str} (hafter : c.after = x :: rest) (hx : p x = true) :
    (plus (set p)).first c =
      some ⟨(c.after.takeWhile p).reverse ++ c.before, c.after.dropWhile p, c.groups⟩ := by
  refine first_seq (first_set hafter hx) (first_star_set.trans ?_)
  simp [hafter, hx]

end Pattern

theorem matchAt_of_first {p : Pattern} {before after : Str} {d : Cursor}
    (h : p.first ⟨before, after, []⟩ = some d) : matchAt p before after =
      some ⟨[], before, Cursor.upTo ⟨before, after, []⟩ d, d.after, d.groups⟩ := by
  unfold matchAt
  rw [show (p.results ⟨before, after, []⟩).head? = some d from h]
  rfl

end Regex
