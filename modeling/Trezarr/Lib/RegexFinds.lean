import Trezarr.Lib.RegexRests

/-! Successive matches, one first match after the other. -/
namespace Regex
open Text Pattern

/-- The matches found in a text: the first one, then those in what is after it. -/
inductive Finds (p : Pattern) : Str → List Found → Prop
  | none {s : Str} (h : p.NoMatchIn s []) : Finds p s []
  | some {s : Str} {f : Found} {fs : List Found} (h : p.FirstMatch s f.skipped f.text f.rest)
    (hrest : Finds p f.rest fs) : Finds p s (f :: fs)

variable {p : Pattern} {s : Str} {f : Found} {fs : List Found}

theorem finds_findFrom (hp : p.LooksAhead) (hc : p.Consumes) {n : ℕ} : ∀ {s before : Str},
    s.length < n → Finds p s (findFrom p n before s) := by
  induction n with
  | zero =>
    intro s before hlt
    omega
  | succ n ih =>
    intro s before hlt
    simp only [findFrom]
    cases hsearch : searchFrom p before s with
    | none => exact .none ((searchFrom_none_iff hp).mp hsearch).1
    | some f =>
      dsimp only
      have hfirst := searchFrom_some hp hsearch
      have hshort : f.rest.length < (f.text ++ f.rest).length :=
        hc _ _ (List.mem_of_mem_head? hfirst.here)
      have hlength := congrArg List.length hfirst.eq
      simp only [List.length_append] at hlength hshort
      cases hmatch : f.text with
      | nil =>
        rw [hmatch] at hshort
        exact absurd hshort (by simp)
      | cons c text =>
        have htail : Finds p f.rest (findFrom p n ((c :: text).reverse ++ f.before) f.rest) :=
          ih (by omega)
        exact .some hfirst htail

theorem finds_findIter (hp : p.LooksAhead) (hc : p.Consumes) (s : Str) :
    Finds p s (findIter p s) :=
  finds_findFrom hp hc (Nat.lt_succ_self _)

theorem Finds.eq (h : Finds p s (f :: fs)) : s = f.skipped ++ (f.text ++ f.rest) := by
  cases h with
  | some h _ => exact h.eq

/-- A match is read where it stands. -/
theorem Finds.mem_rests (h : Finds p s fs) (hf : f ∈ fs) :
    f.text ++ f.rest <:+ s ∧ f.rest ∈ p.rests (f.text ++ f.rest) := by
  induction h with
  | none => cases hf
  | @some s g fs hfirst _ ih =>
    rcases List.mem_cons.mp hf with rfl | hf
    · exact ⟨⟨f.skipped, hfirst.eq.symm⟩, List.mem_of_mem_head? hfirst.here⟩
    · obtain ⟨hsuffix, hmem⟩ := ih hf
      refine ⟨hsuffix.trans ⟨g.skipped ++ g.text, ?_⟩, hmem⟩
      rw [List.append_assoc]
      exact hfirst.eq.symm

/-- Nothing is found exactly where no place of the text has a match. -/
theorem found_eq_false_iff (hp : p.LooksAhead) :
    found p s = false ↔ ∀ t, t <:+ s → p.rests t = [] := by
  rw [found, ← Bool.not_eq_true, Option.isSome_iff_ne_none, not_not]
  refine (searchFrom_none_iff hp).trans ?_
  clear hp
  induction s with
  | nil =>
    simp only [NoMatchIn, true_and, List.suffix_nil, forall_eq]
  | cons c s ih =>
    simp only [NoMatchIn, List.append_nil, and_assoc, List.suffix_cons_iff, forall_eq_or_imp]
    exact and_congr_right fun _ => ih

theorem found_of_rests (hp : p.LooksAhead) {t r : Str} (ht : t <:+ s) (hr : r ∈ p.rests t) :
    found p s = true := by
  by_contra hfound
  rw [Bool.not_eq_true, found_eq_false_iff hp] at hfound
  rw [hfound t ht] at hr
  cases hr

/-- A pattern of which the matches are known is found where one of them stands. -/
theorem found_iff (hp : p.LooksAhead) {Match : Str → Prop}
    (h : ∀ {s r : Str}, r ∈ p.rests s ↔ ∃ w, Match w ∧ s = w ++ r) :
    found p s = true ↔ ∃ w, Match w ∧ w <:+: s := by
  constructor
  · intro hfound
    by_contra hnone
    rw [(found_eq_false_iff hp).mpr] at hfound
    · cases hfound
    · intro t ht
      rw [List.eq_nil_iff_forall_not_mem]
      intro r hr
      obtain ⟨w, hw, rfl⟩ := h.mp hr
      exact hnone ⟨w, hw, (List.prefix_append w r).isInfix.trans ht.isInfix⟩
  · rintro ⟨w, hw, a, b, rfl⟩
    exact found_of_rests hp ⟨a, (List.append_assoc a w b).symm⟩ (h.mpr ⟨w, hw, rfl⟩)

end Regex
