import Mathlib.Data.List.Infix
import Mathlib.Data.List.Nodup

/-! Names that lead through other names to a last one. -/

/-- The names a name leads through, the last of them what it stands for. -/
structure Links (α : Type) where
  trail : α → List α
  trail_ne_nil : ∀ p, trail p ≠ []
  trail_nodup : ∀ p, (trail p).Nodup
  trail_head : ∀ {p e}, e ∈ trail p → (trail e).head? = some e
  trail_suffix : ∀ {p e}, e ∈ trail p → trail e <:+ trail p

namespace Links

variable {α : Type} {l : Links α} {p q e : α}

/-- The first name: what is taken away or replaced when the name itself is. -/
def entry (l : Links α) (p : α) : α := (l.trail p).head (l.trail_ne_nil p)

def resolve (l : Links α) (p : α) : α := (l.trail p).getLast (l.trail_ne_nil p)

theorem entry_mem (l : Links α) (p : α) : l.entry p ∈ l.trail p := List.head_mem _

theorem resolve_mem (l : Links α) (p : α) : l.resolve p ∈ l.trail p := List.getLast_mem _

theorem head?_trail (l : Links α) (p : α) : (l.trail p).head? = some (l.entry p) :=
  List.head?_eq_some_head _

theorem entry_of_mem (h : e ∈ l.trail p) : l.entry e = e :=
  Option.some.inj ((l.head?_trail e).symm.trans (l.trail_head h))

theorem getLast?_trail (l : Links α) (p : α) : (l.trail p).getLast? = some (l.resolve p) :=
  List.getLast?_eq_getLast_of_ne_nil _

/-- Every name on the way stands for the same. -/
theorem resolve_of_mem (h : e ∈ l.trail p) : l.resolve e = l.resolve p := by
  obtain ⟨front, hfront⟩ := l.trail_suffix h
  have hlast := l.getLast?_trail p
  rw [← hfront, List.getLast?_append_of_ne_nil _ (l.trail_ne_nil e), l.getLast?_trail] at hlast
  exact Option.some.inj hlast

@[simp] theorem resolve_resolve (l : Links α) (p : α) : l.resolve (l.resolve p) = l.resolve p :=
  resolve_of_mem (l.resolve_mem p)

theorem resolve_entry (l : Links α) (p : α) : l.resolve (l.entry p) = l.resolve p :=
  resolve_of_mem (l.entry_mem p)

/-- What stands for itself leads nowhere else. -/
theorem trail_of_resolve_eq (h : l.resolve p = p) : l.trail p = [p] := by
  have hmem := l.resolve_mem p
  rw [h] at hmem
  have hhead := l.trail_head hmem
  have hnodup := l.trail_nodup p
  have hlast := l.getLast?_trail p
  rw [h] at hlast
  cases htrail : l.trail p with
  | nil => exact absurd htrail (l.trail_ne_nil p)
  | cons x xs =>
    rw [htrail] at hhead hnodup hlast
    cases hhead
    cases xs with
    | nil => rfl
    | cons y ys =>
      rw [List.getLast?_cons_cons] at hlast
      exact absurd (List.mem_of_getLast? hlast) (List.nodup_cons.mp hnodup).1

/-- A trail with a name on it is what is before the name, and the trail of the name. -/
theorem trail_split (h : e ∈ l.trail p) : ∃ front, l.trail p = front ++ l.trail e ∧ e ∉ front := by
  obtain ⟨front, hfront⟩ := l.trail_suffix h
  refine ⟨front, hfront.symm, fun hmem => ?_⟩
  have hnodup := l.trail_nodup p
  rw [← hfront] at hnodup
  have hself : e ∈ l.trail e := List.mem_of_head? (l.trail_head h)
  exact (List.nodup_append.mp hnodup).2.2 e hmem e hself rfl

section Settle

variable [DecidableEq α]

/-- A trail up to a name on it. -/
def cutAt (e : α) (trail : List α) : List α :=
  if e ∈ trail then trail.takeWhile (· ≠ e) ++ [e] else trail

theorem cutAt_of_not_mem {xs : List α} (h : e ∉ xs) : cutAt e xs = xs := if_neg h

theorem cutAt_append {front xs : List α} (hfront : e ∉ front) :
    cutAt e (front ++ xs) = front ++ cutAt e xs := by
  unfold cutAt
  by_cases h : e ∈ xs
  · have hall : ∀ x ∈ front, (decide (x ≠ e)) = true := by
      intro x hx
      exact decide_eq_true fun heq => hfront (heq ▸ hx)
    rw [if_pos h, if_pos (List.mem_append_right front h), List.takeWhile_append_of_pos hall,
      List.append_assoc]
  · rw [if_neg h, if_neg (by simp [hfront, h])]

theorem cutAt_cons_self (xs : List α) : cutAt e (e :: xs) = [e] := by simp [cutAt]

theorem cutAt_trail (h : e ∈ l.trail p) :
    ∃ front, cutAt e (l.trail p) = front ++ [e] ∧ e ∉ front ∧ l.trail p = front ++ l.trail e := by
  obtain ⟨front, hfront, hnot⟩ := l.trail_split h
  refine ⟨front, ?_, hnot, hfront⟩
  obtain ⟨rest, hrest⟩ := List.head?_eq_some_iff.mp (l.trail_head h)
  rw [hfront, cutAt_append hnot, hrest, cutAt_cons_self]

theorem cutAt_subset (e : α) (xs : List α) : cutAt e xs ⊆ xs := by
  intro x hx
  unfold cutAt at hx
  split at hx
  next h =>
    rcases List.mem_append.mp hx with hx | hx
    · exact List.takeWhile_subset _ hx
    · rw [List.mem_singleton.mp hx]
      exact h
  next => exact hx

/-- The trail of a name before the cut is cut there too. -/
theorem cutAt_suffix {x : α} (h : x ∈ cutAt e (l.trail p)) :
    cutAt e (l.trail x) <:+ cutAt e (l.trail p) ∧ (cutAt e (l.trail x)).head? = some x := by
  have hx := cutAt_subset e (l.trail p) h
  by_cases he : e ∈ l.trail p
  · obtain ⟨front, hcut, hnot, htrail⟩ := cutAt_trail he
    rw [hcut] at h ⊢
    rcases List.mem_append.mp h with hfront | hend
    · -- the name is before the cut, so its own trail leads there
      have hne : x ≠ e := fun heq => hnot (heq ▸ hfront)
      have hmem : e ∈ l.trail x := by
        rcases List.suffix_or_suffix_of_suffix (l.trail_suffix hx) (l.trail_suffix he) with hs | hs
        · have hin : x ∈ l.trail e := hs.mem (List.mem_of_head? (l.trail_head hx))
          have hnodup := l.trail_nodup p
          rw [htrail] at hnodup
          exact absurd rfl ((List.nodup_append.mp hnodup).2.2 x hfront x hin)
        · exact hs.mem (List.mem_of_head? (l.trail_head he))
      obtain ⟨front', hcut', _, htrail'⟩ := cutAt_trail hmem
      rw [hcut']
      obtain ⟨t, ht⟩ := l.trail_suffix hx
      rw [htrail, htrail', ← List.append_assoc] at ht
      have hfronts := List.append_cancel_right ht
      refine ⟨⟨t, by rw [← List.append_assoc, hfronts]⟩, ?_⟩
      have hhead := l.trail_head hx
      rw [htrail'] at hhead
      cases front' with
      | nil => exact absurd (Option.some.inj (hhead.symm.trans (l.trail_head he))) hne
      | cons y ys => exact hhead
    · rw [List.mem_singleton.mp hend]
      obtain ⟨rest, hrest⟩ := List.head?_eq_some_iff.mp (l.trail_head he)
      rw [hrest, cutAt_cons_self]
      exact ⟨List.suffix_append front [e], rfl⟩
  · have hnot : e ∉ l.trail x := fun hmem => he ((l.trail_suffix hx).mem hmem)
    rw [cutAt_of_not_mem he, cutAt_of_not_mem hnot]
    exact ⟨l.trail_suffix hx, l.trail_head hx⟩

theorem cutAt_ne_nil (h : l.trail p ≠ []) : cutAt e (l.trail p) ≠ [] := by
  unfold cutAt
  split
  next => simp
  next => exact h

theorem cutAt_nodup : (cutAt e (l.trail p)).Nodup := by
  by_cases he : e ∈ l.trail p
  · obtain ⟨front, hcut, hnot, htrail⟩ := cutAt_trail he
    have hnodup := l.trail_nodup p
    rw [htrail] at hnodup
    rw [hcut]
    have hfront := (List.nodup_append.mp hnodup).1
    exact List.nodup_append.mpr ⟨hfront, List.nodup_singleton e, fun x hx y hy heq =>
      hnot (List.mem_singleton.mp hy ▸ heq ▸ hx)⟩
  · rw [cutAt_of_not_mem he]
    exact l.trail_nodup p

/-- Trails that lead through the entry of a name end there. -/
def settle (l : Links α) (p : α) : Links α where
  trail q := cutAt (l.entry p) (l.trail q)
  trail_ne_nil q := cutAt_ne_nil (l.trail_ne_nil q)
  trail_nodup _ := cutAt_nodup
  trail_head h := (cutAt_suffix h).2
  trail_suffix h := (cutAt_suffix h).1

theorem head?_cutAt (e : α) (xs : List α) : (cutAt e xs).head? = xs.head? := by
  cases xs with
  | nil => rfl
  | cons x xs =>
    unfold cutAt
    split
    next h =>
      by_cases hx : x = e
      · simp [hx]
      · simp [hx]
    next => rfl

@[simp] theorem entry_settle (l : Links α) (p q : α) : (l.settle p).entry q = l.entry q := by
  apply Option.some.inj
  rw [← head?_trail, ← head?_trail]
  exact head?_cutAt _ _

theorem resolve_settle_of_mem (h : l.entry p ∈ l.trail q) :
    (l.settle p).resolve q = l.entry p := by
  obtain ⟨front, hcut, _, _⟩ := cutAt_trail h
  have hlast := (l.settle p).getLast?_trail q
  have htrail : (l.settle p).trail q = front ++ [l.entry p] := hcut
  rw [htrail, List.getLast?_concat] at hlast
  exact (Option.some.inj hlast).symm

theorem resolve_settle_of_not_mem (h : l.entry p ∉ l.trail q) :
    (l.settle p).resolve q = l.resolve q := by
  have hlast := (l.settle p).getLast?_trail q
  have htrail : (l.settle p).trail q = l.trail q := cutAt_of_not_mem h
  rw [htrail, l.getLast?_trail] at hlast
  exact (Option.some.inj hlast).symm

/-- Names that led past the entry still stand for what they stood for. -/
theorem not_mem_of_resolve_settle (h : l.entry p ∉ l.trail e)
    (hq : (l.settle p).resolve q = (l.settle p).resolve e) :
    l.entry p ∉ l.trail q ∧ l.resolve q = l.resolve e := by
  rw [resolve_settle_of_not_mem h] at hq
  by_cases hmem : l.entry p ∈ l.trail q
  · rw [resolve_settle_of_mem hmem] at hq
    exact absurd (hq ▸ l.resolve_mem e) h
  · rw [resolve_settle_of_not_mem hmem] at hq
    exact ⟨hmem, hq⟩

/-- What stood for itself still does. -/
theorem resolve_settle_of_eq (h : l.resolve q = q) : (l.settle p).resolve q = q := by
  by_cases hmem : l.entry p ∈ l.trail q
  · rw [resolve_settle_of_mem hmem]
    rw [trail_of_resolve_eq h] at hmem
    exact List.mem_singleton.mp hmem
  · rw [resolve_settle_of_not_mem hmem, h]

end Settle

/-- One name that leads to another. -/
def single [DecidableEq α] (link target : α) : Links α where
  trail p := if p = link ∧ link ≠ target then [link, target] else [p]
  trail_ne_nil p := by split <;> simp
  trail_nodup p := by
    split
    next h => simpa using h.2
    next => exact List.nodup_singleton p
  trail_head {p e} h := by
    split at h
    next hp =>
      by_cases he : e = link
      · simp [he, hp.2]
      · simp [he]
    next hp =>
      rw [List.mem_singleton.mp h, if_neg hp]
      rfl
  trail_suffix {p e} h := by
    split at h
    next hp =>
      obtain ⟨rfl, hne⟩ := hp
      rcases List.mem_cons.mp h with rfl | he
      · exact List.suffix_refl _
      · rw [List.mem_singleton.mp he, if_neg fun hboth => hne hboth.1.symm, if_pos ⟨rfl, hne⟩]
        exact List.suffix_cons p _
    next hp => rw [List.mem_singleton.mp h]

end Links
