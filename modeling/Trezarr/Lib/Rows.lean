import Mathlib.Data.List.Nodup

/-! Result sets of relational queries. -/
namespace Rows

variable {α : Type*} {xs : List α} {a : α}

inductive QueryError
  | multipleResultsFound
  deriving DecidableEq, Repr

/-- At most one row may match: none and one are answers, more is an error. -/
def scalarOneOrNone : List α → Except QueryError (Option α)
  | [] => .ok none
  | [a] => .ok (some a)
  | _ :: _ :: _ => .error .multipleResultsFound

theorem scalarOneOrNone_ok {o : Option α} :
    scalarOneOrNone xs = .ok o ↔ xs = o.toList := by
  match xs, o with
  | [], none | [], some b => simp [scalarOneOrNone]
  | [a], none | [a], some b => simp [scalarOneOrNone]
  | a :: b :: ys, none | a :: b :: ys, some c => simp [scalarOneOrNone]

theorem scalarOneOrNone_of_unique {p : α → Bool} (hn : xs.Nodup)
    (hu : ∀ a ∈ xs, ∀ b ∈ xs, p a → p b → a = b) :
    scalarOneOrNone (xs.filter p) = .ok (xs.find? p) := by
  rw [scalarOneOrNone_ok, ← List.head?_filter]
  have hf := hn.filter p
  have hu' : ∀ a ∈ xs.filter p, ∀ b ∈ xs.filter p, a = b := by
    intro a ha b hb
    rw [List.mem_filter] at ha hb
    exact hu a ha.1 b hb.1 ha.2 hb.2
  match he : xs.filter p with
  | [] => rfl
  | [a] => rfl
  | a :: b :: ys =>
    rw [he] at hf hu'
    have := hu' a (by simp) b (by simp)
    simp [this] at hf

theorem unique_of_scalarOneOrNone {p : α → Bool} {o : Option α}
    (h : scalarOneOrNone (xs.filter p) = .ok o) :
    ∀ a ∈ xs, ∀ b ∈ xs, p a → p b → a = b := by
  rw [scalarOneOrNone_ok] at h
  intro a ha b hb hpa hpb
  have hma : a ∈ xs.filter p := List.mem_filter.mpr ⟨ha, hpa⟩
  have hmb : b ∈ xs.filter p := List.mem_filter.mpr ⟨hb, hpb⟩
  rw [h, Option.mem_toList] at hma hmb
  exact Option.some_inj.mp (hma.symm.trans hmb)

end Rows
