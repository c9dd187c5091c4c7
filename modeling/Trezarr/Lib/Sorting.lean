import Mathlib.Data.List.Sort

/-! Lists in the order of a key, and their first element. -/
namespace Sorting

variable {α β : Type*} [LinearOrder β] {key : α → β} {xs : List α} {a : α}

/-- Elements with equal keys stay in the order they had. -/
def sortOn (key : α → β) (xs : List α) : List α := xs.insertionSort fun a b => key a ≤ key b

@[simp] theorem mem_sortOn : a ∈ sortOn key xs ↔ a ∈ xs := List.mem_insertionSort _

theorem pairwise_sortOn (key : α → β) (xs : List α) :
    (sortOn key xs).Pairwise fun a b => key a ≤ key b :=
  have : Std.Total fun a b => key a ≤ key b := ⟨fun a b => le_total (key a) (key b)⟩
  have : IsTrans α fun a b => key a ≤ key b := ⟨fun _ _ _ => le_trans⟩
  List.pairwise_insertionSort _ _

@[simp] theorem sortOn_eq_nil_iff : sortOn key xs = [] ↔ xs = [] := by
  simp only [List.eq_nil_iff_forall_not_mem, mem_sortOn]

theorem least_of_head?_sortOn (h : (sortOn key xs).head? = some a) :
    a ∈ xs ∧ ∀ b ∈ xs, key a ≤ key b := by
  have hsorted := pairwise_sortOn key xs
  obtain ⟨rest, hrest⟩ := List.head?_eq_some_iff.mp h
  rw [hrest, List.pairwise_cons] at hsorted
  refine ⟨mem_sortOn.mp (hrest ▸ List.mem_cons_self), fun b hb => ?_⟩
  have hmem : b ∈ sortOn key xs := mem_sortOn.mpr hb
  rw [hrest] at hmem
  rcases List.mem_cons.mp hmem with rfl | hmem
  · exact le_rfl
  · exact hsorted.1 b hmem

/-- The first of a kind has the least key of its kind. -/
theorem least_of_find?_sortOn {p : α → Bool} (h : (sortOn key xs).find? p = some a) :
    a ∈ xs ∧ p a ∧ ∀ b ∈ xs, p b → key a ≤ key b := by
  obtain ⟨hpa, front, back, hsorted, hfront⟩ := List.find?_eq_some_iff_append.mp h
  have hmem : a ∈ sortOn key xs := hsorted ▸ List.mem_append_right _ List.mem_cons_self
  refine ⟨mem_sortOn.mp hmem, hpa, fun b hb hpb => ?_⟩
  have hplaces : b ∈ front ++ a :: back := hsorted ▸ mem_sortOn.mpr hb
  have hpairs := pairwise_sortOn key xs
  rw [hsorted, List.pairwise_append, List.pairwise_cons] at hpairs
  rcases List.mem_append.mp hplaces with hbefore | hafter
  · have hnot := hfront b hbefore
    rw [hpb] at hnot
    cases hnot
  · rcases List.mem_cons.mp hafter with rfl | hafter
    · exact le_rfl
    · exact hpairs.2.1.1 b hafter

/-- Elements that are left of a numbered list are still in order. -/
theorem pairwise_places {ps : List (α × ℕ)} {n : ℕ} (h : ps.Sublist (xs.zipIdx n)) :
    (ps.map Prod.snd).Pairwise (· < ·) := by
  have hall : ((xs.zipIdx n).map Prod.snd).Pairwise (· < ·) := by
    rw [List.zipIdx_map_snd]
    exact List.pairwise_lt_range'
  exact hall.sublist (h.map Prod.snd)

/-- A key that tells elements apart leaves no choice of the first. -/
theorem head?_sortOn_iff (hkey : Function.Injective key) :
    (sortOn key xs).head? = some a ↔ a ∈ xs ∧ ∀ b ∈ xs, key a ≤ key b := by
  refine ⟨least_of_head?_sortOn, fun ⟨ha, hleast⟩ => ?_⟩
  cases hhead : (sortOn key xs).head? with
  | none =>
    rw [List.head?_eq_none_iff, sortOn_eq_nil_iff] at hhead
    rw [hhead] at ha
    cases ha
  | some b =>
    obtain ⟨hb, hbleast⟩ := least_of_head?_sortOn hhead
    rw [hkey (le_antisymm (hbleast a ha) (hleast b hb))]

end Sorting
