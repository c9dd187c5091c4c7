import Mathlib.Data.List.Infix
import Mathlib.Data.Int.Order.Basic

/-! One kind of brackets in a text: how deep it is, and what one pair encloses. -/
namespace Brackets

variable {α : Type} [DecidableEq α] {opener closer x : α} {s inner : List α}

/-- The brackets opened and not closed. -/
def depth (opener closer : α) (s : List α) : ℤ := s.count opener - s.count closer

/-- No bracket is closed before it is opened, and all are closed. -/
structure Balanced (opener closer : α) (s : List α) : Prop where
  prefixes : ∀ p, p <+: s → 0 ≤ depth opener closer p
  whole : depth opener closer s = 0

/-- The bracket opened first is closed last and not before. -/
def Enclosed (opener closer : α) (s : List α) : Prop :=
  ∃ inner, s = opener :: inner ++ [closer] ∧ Balanced opener closer inner

theorem depth_nil : depth opener closer [] = 0 := rfl

/-- What one character adds to the depth. -/
def weight (opener closer x : α) : ℤ := if x = opener then 1 else if x = closer then -1 else 0

theorem depth_cons (hne : opener ≠ closer) (x : α) (s : List α) :
    depth opener closer (x :: s) = weight opener closer x + depth opener closer s := by
  rw [weight, depth, depth]
  by_cases ho : x = opener
  · rw [if_pos ho, ho, List.count_cons_self, List.count_cons_of_ne hne]
    omega
  · rw [if_neg ho, List.count_cons_of_ne ho]
    by_cases hc : x = closer
    · rw [if_pos hc, hc, List.count_cons_self]
      omega
    · rw [if_neg hc, List.count_cons_of_ne hc]
      omega

omit [DecidableEq α] in
theorem forall_prefix_cons {P : List α → Prop} :
    (∀ p, p <+: x :: s → P p) ↔ P [] ∧ ∀ p, p <+: s → P (x :: p) := by
  constructor
  · intro h
    exact ⟨h [] List.nil_prefix, fun p hp => h (x :: p) (List.cons_prefix_cons.mpr ⟨rfl, hp⟩)⟩
  · rintro ⟨hnil, hcons⟩ p hp
    rcases List.prefix_cons_iff.mp hp with rfl | ⟨t, rfl, ht⟩
    · exact hnil
    · exact hcons t ht

theorem Enclosed.head? (h : Enclosed opener closer s) : s.head? = some opener := by
  obtain ⟨inner, rfl, -⟩ := h
  rfl

theorem Enclosed.getLast? (h : Enclosed opener closer s) : s.getLast? = some closer := by
  obtain ⟨inner, rfl, -⟩ := h
  exact List.getLast?_concat

theorem enclosed_iff : Enclosed opener closer (opener :: inner ++ [closer]) ↔
    Balanced opener closer inner := by
  refine ⟨fun ⟨inner', heq, hb⟩ => ?_, fun hb => ⟨inner, rfl, hb⟩⟩
  rw [List.append_cancel_right_eq, List.cons.injEq] at heq
  rwa [heq.2]

end Brackets
