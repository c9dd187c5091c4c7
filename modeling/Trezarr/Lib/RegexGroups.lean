import Mathlib.Data.List.Infix
import Trezarr.Lib.RegexRests

/-! What a match of any pattern can take: a front of the text, and for each group a part of that. -/
namespace Regex
open Text

/-- A match goes forward, and its new groups are made of what was ahead of it. -/
structure Cursor.Reaches (c d : Cursor) : Prop where
  suffix : d.after <:+ c.after
  groups : ∀ g ∈ d.groups, g ∈ c.groups ∨ ∀ x ∈ g.2, x ∈ c.after

namespace Cursor.Reaches

variable {c d e : Cursor}

theorem refl (c : Cursor) : c.Reaches c := ⟨List.suffix_refl _, fun _ hg => .inl hg⟩

theorem trans (hcd : c.Reaches d) (hde : d.Reaches e) : c.Reaches e where
  suffix := hde.suffix.trans hcd.suffix
  groups g hg := by
    rcases hde.groups g hg with hg | hnew
    · exact hcd.groups g hg
    · exact .inr fun x hx => hcd.suffix.mem (hnew x hx)

end Cursor.Reaches

namespace Pattern

theorem reaches_iterate {f : Cursor → List Cursor} (h : ∀ c, ∀ d ∈ f c, c.Reaches d) (n : ℕ) :
    ∀ c, ∀ d ∈ iterate f n c, c.Reaches d := by
  induction n with
  | zero =>
    intro c d hd
    rw [List.mem_singleton.mp hd]
    exact .refl c
  | succ n ih =>
    intro c d hd
    simp only [iterate, List.mem_append, List.mem_flatMap, List.mem_filter,
      List.mem_singleton] at hd
    rcases hd with ⟨e, he, hd⟩ | rfl
    · exact (h c e he.1).trans (ih e d hd)
    · exact .refl d

theorem reaches_results {p : Pattern} : ∀ c, ∀ d ∈ p.results c, c.Reaches d := by
  have hstay : ∀ {b : Bool} {c d : Cursor}, d ∈ (if b then [c] else []) → c.Reaches d := by
    intro b c d hd
    cases b with
    | false => cases hd
    | true =>
      rw [List.mem_singleton.mp hd]
      exact .refl c
  induction p with
  | eps =>
    intro c d hd
    rw [List.mem_singleton.mp hd]
    exact .refl c
  | set p =>
    intro c d hd
    simp only [results] at hd
    split at hd
    next => cases hd
    next x rest hafter =>
      split at hd
      next =>
        rw [List.mem_singleton.mp hd]
        refine ⟨?_, fun g hg => .inl hg⟩
        rw [hafter]
        exact List.suffix_cons x rest
      next => cases hd
  | seq a b iha ihb =>
    intro c d hd
    obtain ⟨e, he, hd⟩ := List.mem_flatMap.mp hd
    exact (iha c e he).trans (ihb e d hd)
  | alt a b iha ihb =>
    intro c d hd
    rcases List.mem_append.mp hd with hd | hd
    · exact iha c d hd
    · exact ihb c d hd
  | star a ih => exact fun c => reaches_iterate ih c.after.length c
  | group n a ih =>
    intro c d hd
    obtain ⟨e, he, rfl⟩ := List.mem_map.mp hd
    refine ⟨(ih c e he).suffix, fun g hg => ?_⟩
    rcases List.mem_cons.mp hg with rfl | hg
    · exact .inr fun x hx => List.mem_of_mem_take hx
    · exact (ih c e he).groups g hg
  | start => exact fun c d hd => hstay (b := decide _) (by simpa [results] using hd)
  | lineStart => exact fun c d hd => hstay (b := decide _) (by simpa [results] using hd)
  | finish => exact fun c d hd => hstay (b := decide _) (by simpa [results] using hd)
  | boundary =>
    intro c d hd
    simp only [results] at hd
    split at hd
    · cases hd
    · rw [List.mem_singleton.mp hd]
      exact .refl c
  | notAhead a _ =>
    intro c d hd
    simp only [results] at hd
    split at hd
    · rw [List.mem_singleton.mp hd]
      exact .refl c
    · cases hd
  | notBehind p =>
    intro c d hd
    simp only [results] at hd
    split at hd
    · cases hd
    · rw [List.mem_singleton.mp hd]
      exact .refl c

/-- The pattern notes down no groups. -/
def Groupless : Pattern → Prop
  | group _ _ => False
  | seq a b | alt a b => a.Groupless ∧ b.Groupless
  | star a => a.Groupless
  | _ => True

theorem groups_iterate {f : Cursor → List Cursor} (h : ∀ c, ∀ d ∈ f c, d.groups = c.groups)
    (n : ℕ) : ∀ c, ∀ d ∈ iterate f n c, d.groups = c.groups := by
  induction n with
  | zero =>
    intro c d hd
    rw [List.mem_singleton.mp hd]
  | succ n ih =>
    intro c d hd
    simp only [iterate, List.mem_append, List.mem_flatMap, List.mem_filter,
      List.mem_singleton] at hd
    rcases hd with ⟨e, he, hd⟩ | rfl
    · exact (ih e d hd).trans (h c e he.1)
    · rfl

theorem groups_of_mem_results {p : Pattern} (hp : p.Groupless) :
    ∀ c, ∀ d ∈ p.results c, d.groups = c.groups := by
  have hstay : ∀ {b : Bool} {c d : Cursor}, d ∈ (if b then [c] else []) → d.groups = c.groups := by
    intro b c d hd
    cases b with
    | false => cases hd
    | true => rw [List.mem_singleton.mp hd]
  induction p with
  | eps =>
    intro c d hd
    rw [List.mem_singleton.mp hd]
  | set p =>
    intro c d hd
    simp only [results] at hd
    split at hd
    next => cases hd
    next x rest hafter =>
      split at hd
      next => rw [List.mem_singleton.mp hd]
      next => cases hd
  | seq a b iha ihb =>
    intro c d hd
    obtain ⟨e, he, hd⟩ := List.mem_flatMap.mp hd
    exact (ihb hp.2 e d hd).trans (iha hp.1 c e he)
  | alt a b iha ihb =>
    intro c d hd
    rcases List.mem_append.mp hd with hd | hd
    · exact iha hp.1 c d hd
    · exact ihb hp.2 c d hd
  | star a ih => exact fun c => groups_iterate (ih hp) c.after.length c
  | group n a _ => exact hp.elim
  | start => exact fun c d hd => hstay (b := decide _) (by simpa [results] using hd)
  | lineStart => exact fun c d hd => hstay (b := decide _) (by simpa [results] using hd)
  | finish => exact fun c d hd => hstay (b := decide _) (by simpa [results] using hd)
  | boundary =>
    intro c d hd
    simp only [results] at hd
    split at hd
    · cases hd
    · rw [List.mem_singleton.mp hd]
  | notAhead a _ =>
    intro c d hd
    simp only [results] at hd
    split at hd
    · rw [List.mem_singleton.mp hd]
    · cases hd
  | notBehind p =>
    intro c d hd
    simp only [results] at hd
    split at hd
    · cases hd
    · rw [List.mem_singleton.mp hd]

/-- What a groupless pattern that looks ahead takes and leaves. -/
theorem mem_results {p : Pattern} (hp : p.LooksAhead) (hg : p.Groupless) {c d : Cursor}
    (h : d ∈ p.results c) : d.after ∈ p.rests c.after ∧ d.groups = c.groups := by
  refine ⟨?_, groups_of_mem_results hg c d h⟩
  rw [← map_results hp]
  exact List.mem_map_of_mem h

/-- The group is what was taken. -/
theorem mem_results_group {n : ℕ} {p : Pattern} (hp : p.LooksAhead) (hg : p.Groupless)
    {c d : Cursor} (h : d ∈ (group n p).results c) :
    ∃ m, c.after = m ++ d.after ∧ d.after ∈ p.rests c.after ∧ d.groups = (n, m) :: c.groups := by
  obtain ⟨e, he, rfl⟩ := List.mem_map.mp h
  obtain ⟨hrests, hgroups⟩ := mem_results hp hg he
  obtain ⟨m, hm⟩ := suffix_of_mem_rests _ _ hrests
  refine ⟨m, hm.symm, hrests, ?_⟩
  simp [Cursor.upTo, ← hm, hgroups]

end Pattern

theorem mem_of_mem_group {p : Pattern} {s : Str} {f : Found} (h : fullMatch p s = some f) (n : ℕ) :
    ∀ x ∈ f.group n, x ∈ s := by
  obtain ⟨d, hd, rfl⟩ := Option.map_eq_some_iff.mp h
  have hreaches := Pattern.reaches_results _ d (List.mem_of_find?_eq_some hd)
  intro x hx
  unfold Found.group at hx
  cases hfind : d.groups.find? (·.1 = n) with
  | none => simp [hfind] at hx
  | some g =>
    simp only [hfind, Option.map_some, Option.getD_some] at hx
    rcases hreaches.groups g (List.mem_of_find?_eq_some hfind) with hg | hg
    · cases hg
    · exact hg x hx

end Regex
