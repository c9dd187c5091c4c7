import Mathlib.Data.List.Basic

/-! Runs of a deterministic system over a list of inputs, and what one step lends to all of them. -/
namespace Runs

variable {σ τ ι ω : Type*} {step : σ → ι → σ} {s : σ} {xs ys : List ι}

def run (step : σ → ι → σ) (s : σ) (xs : List ι) : σ := xs.foldl step s

/-- `P` holds of every state before a step together with the input of that step. -/
def Along (step : σ → ι → σ) (P : σ → ι → Prop) : σ → List ι → Prop
  | _, [] => True
  | s, x :: xs => P s x ∧ Along step P (step s x) xs

instance Along.decidable (step : σ → ι → σ) (P : σ → ι → Prop) [∀ s x, Decidable (P s x)] :
    ∀ s xs, Decidable (Along step P s xs)
  | _, [] => inferInstanceAs (Decidable True)
  | s, x :: xs =>
    have := Along.decidable step P (step s x) xs
    inferInstanceAs (Decidable (P s x ∧ Along step P (step s x) xs))

@[simp] theorem run_nil : run step s [] = s := rfl

@[simp] theorem run_cons (x : ι) : run step s (x :: xs) = run step (step s x) xs := rfl

theorem run_append : run step s (xs ++ ys) = run step (run step s xs) ys := by
  simp [run]

@[simp] theorem along_nil {P : σ → ι → Prop} : Along step P s [] := trivial

@[simp] theorem along_cons {P : σ → ι → Prop} {x : ι} :
    Along step P s (x :: xs) ↔ P s x ∧ Along step P (step s x) xs := Iff.rfl

theorem along_append {P : σ → ι → Prop} :
    Along step P s (xs ++ ys) ↔ Along step P s xs ∧ Along step P (run step s xs) ys := by
  induction xs generalizing s with
  | nil => simp
  | cons x xs ih => simp [ih, and_assoc]

theorem Along.mono {P Q : σ → ι → Prop} (h : Along step P s xs) (hpq : ∀ s x, P s x → Q s x) :
    Along step Q s xs := by
  induction xs generalizing s with
  | nil => trivial
  | cons x xs ih => exact ⟨hpq s x h.1, ih h.2⟩

theorem along_and {P Q : σ → ι → Prop} :
    Along step (fun s x => P s x ∧ Q s x) s xs ↔ Along step P s xs ∧ Along step Q s xs := by
  induction xs generalizing s with
  | nil => simp
  | cons x xs ih => simp only [along_cons, ih]; tauto

theorem along_of_forall {P : σ → ι → Prop} (h : ∀ s x, P s x) : Along step P s xs := by
  induction xs generalizing s with
  | nil => trivial
  | cons x xs ih => exact ⟨h s x, ih⟩

/-- Every state before a step is the end of the run over a prefix. -/
theorem along_iff_before {P : σ → ι → Prop} :
    Along step P s xs ↔ ∀ ys x zs, xs = ys ++ x :: zs → P (run step s ys) x := by
  constructor
  · rintro h ys x zs rfl
    exact (along_append.mp h).2.1
  · induction xs generalizing s with
    | nil => exact fun _ => trivial
    | cons x xs ih =>
      intro h
      refine ⟨h [] x xs rfl, ih fun ys y zs he => ?_⟩
      simpa using h (x :: ys) y zs (by simp [he])

theorem along_mem : Along step (fun _ x => x ∈ xs) s xs := by
  rw [along_iff_before]
  rintro ys x zs rfl
  simp

/-- The induction of every invariant: guarded steps keep it, so guarded runs do. -/
theorem invariant_run {I : σ → Prop} {G : σ → ι → Prop}
    (hstep : ∀ s x, I s → G s x → I (step s x)) (hs : I s) (h : Along step G s xs) :
    I (run step s xs) := by
  induction xs generalizing s with
  | nil => exact hs
  | cons x xs ih => exact ih (hstep s x hs h.1) h.2

theorem along_of_invariant {I : σ → Prop} {G P : σ → ι → Prop}
    (hstep : ∀ s x, I s → G s x → I (step s x)) (hP : ∀ s x, I s → G s x → P s x)
    (hs : I s) (h : Along step G s xs) : Along step P s xs := by
  induction xs generalizing s with
  | nil => trivial
  | cons x xs ih => exact ⟨hP s x hs h.1, ih (hstep s x hs h.1) h.2⟩

/-- An invariant with an exact guard for each step, as long as `J` holds, holds everywhere just
when it holds first and every step keeps to its guard. -/
theorem everywhere_iff {I J : σ → Prop} {G : σ → ι → Prop} (hJ : ∀ s x, J s → J (step s x))
    (hstep : ∀ s x, J s → I s → (I (step s x) ↔ G s x)) (hs : J s) :
    (∀ ys zs, xs = ys ++ zs → I (run step s ys)) ↔ I s ∧ Along step G s xs := by
  constructor
  · intro h
    refine ⟨h [] xs rfl, ?_⟩
    rw [along_iff_before]
    intro ys x zs he
    have hbefore := h ys (x :: zs) he
    have hafter : I (step (run step s ys) x) := by
      have hnext := h (ys ++ [x]) zs (by rw [he, List.append_assoc]; rfl)
      rwa [run_append] at hnext
    have hkept : J (run step s ys) :=
      invariant_run (fun t y ht _ => hJ t y ht) hs (along_of_forall (P := fun _ _ => True)
        fun _ _ => trivial)
    exact (hstep _ x hkept hbefore).mp hafter
  · rintro ⟨hI, hG⟩ ys zs rfl
    have hboth : J (run step s ys) ∧ I (run step s ys) :=
      invariant_run (I := fun t => J t ∧ I t)
        (fun t y ht hy => ⟨hJ t y ht.1, (hstep t y ht.1 ht.2).mpr hy⟩) ⟨hs, hI⟩
        (along_append.mp hG).1
    exact hboth.2

/-- A reflexive and transitive relation that every guarded step respects relates the ends. -/
theorem related_run {R : σ → σ → Prop} {G : σ → ι → Prop} (hrefl : ∀ s, R s s)
    (htrans : ∀ a b c, R a b → R b c → R a c) (hstep : ∀ s x, G s x → R s (step s x))
    (h : Along step G s xs) : R s (run step s xs) := by
  induction xs generalizing s with
  | nil => exact hrefl s
  | cons x xs ih => exact htrans _ _ _ (hstep s x h.1) (ih h.2)

/-- Two systems that take the same inputs and stay related. -/
theorem simulation_run {step' : τ → ι → τ} {t : τ} {R : σ → τ → Prop}
    (hstep : ∀ s t x, R s t → R (step s x) (step' t x)) (h : R s t) :
    R (run step s xs) (run step' t xs) := by
  induction xs generalizing s t with
  | nil => exact h
  | cons x xs ih => exact ih (hstep s t x h)

end Runs
