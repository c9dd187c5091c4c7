import Mathlib.Data.List.Forall2

/-! Taking apart a fallible computation that is known to have succeeded. -/
namespace Fallible

variable {ε ε' α β : Type} {x : Except ε α}

@[simp] theorem pure_eq_ok (a : α) : (pure a : Except ε α) = .ok a := rfl

@[simp] theorem ok_bind (a : α) (f : α → Except ε β) : ((.ok a : Except ε α) >>= f) = f a := rfl

@[simp] theorem error_bind (err : ε) (f : α → Except ε β) :
    ((.error err : Except ε α) >>= f) = .error err := rfl

@[simp] theorem ok_mapError (a : α) (f : ε → ε') :
    (.ok a : Except ε α).mapError f = .ok a := rfl

@[simp] theorem error_mapError (err : ε) (f : ε → ε') :
    (.error err : Except ε α).mapError f = .error (f err) := rfl

theorem bind_ok {f : α → Except ε β} {b : β} (h : (x >>= f) = .ok b) :
    ∃ a, x = .ok a ∧ f a = .ok b := by
  cases x with
  | error e => cases h
  | ok a => exact ⟨a, rfl, h⟩

theorem bind_error {f : α → Except ε β} {err : ε} (h : (x >>= f) = .error err) :
    x = .error err ∨ ∃ a, x = .ok a ∧ f a = .error err := by
  cases x with
  | error e => exact .inl (congrArg Except.error (Except.error.inj h))
  | ok a => exact .inr ⟨a, rfl, h⟩

theorem map_ok {f : α → β} {b : β} (h : x.map f = .ok b) : ∃ a, x = .ok a ∧ f a = b := by
  cases x with
  | error e => cases h
  | ok a => exact ⟨a, rfl, Except.ok.inj h⟩

theorem mapError_ok {f : ε → ε'} {a : α} (h : x.mapError f = .ok a) : x = .ok a := by
  cases x with
  | error e => cases h
  | ok a => exact congrArg Except.ok (Except.ok.inj h)

theorem isOk_elim (h : x.isOk = true) : ∃ a, x = .ok a := by
  cases x with
  | error e => cases h
  | ok a => exact ⟨a, rfl⟩

/-- A list of computations succeeds as a whole when each of them does. -/
theorem mapM_ok {f : α → Except ε β} {xs : List α} :
    ∀ {ys : List β}, xs.mapM f = .ok ys → List.Forall₂ (fun x y => f x = .ok y) xs ys := by
  induction xs with
  | nil =>
    intro ys h
    cases h
    exact .nil
  | cons x xs ih =>
    intro ys h
    rw [List.mapM_cons] at h
    obtain ⟨y, hy, h'⟩ := bind_ok h
    obtain ⟨ys', hys, h''⟩ := bind_ok h'
    cases h''
    exact .cons hy (ih hys)

theorem mem_of_mapM {f : α → Except ε β} {xs : List α} {ys : List β} {y : β}
    (h : xs.mapM f = .ok ys) (hy : y ∈ ys) : ∃ x ∈ xs, f x = .ok y := by
  have hall := mapM_ok h
  clear h
  induction hall with
  | nil => exact absurd hy List.not_mem_nil
  | @cons x _ xs _ hxy _ ih =>
    rcases List.mem_cons.mp hy with rfl | hy
    · exact ⟨x, List.mem_cons_self, hxy⟩
    · obtain ⟨x', hmem, h⟩ := ih hy
      exact ⟨x', List.mem_cons_of_mem x hmem, h⟩

/-- The computation at a place succeeds with the result at that place. -/
theorem mapM_getElem? {f : α → Except ε β} {xs : List α} : ∀ {ys : List β} {i : ℕ} {x : α},
    xs.mapM f = .ok ys → xs[i]? = some x → ∃ y, ys[i]? = some y ∧ f x = .ok y := by
  induction xs with
  | nil =>
    intro ys i x _ hx
    cases hx
  | cons a xs ih =>
    intro ys i x h hx
    rw [List.mapM_cons] at h
    obtain ⟨y, hy, h'⟩ := bind_ok h
    obtain ⟨ys', hys, h''⟩ := bind_ok h'
    cases h''
    cases i with
    | zero =>
      cases hx
      exact ⟨y, rfl, hy⟩
    | succ i =>
      obtain ⟨y', hy', hxy⟩ := ih hys (by simpa using hx)
      exact ⟨y', by simpa using hy', hxy⟩

theorem mapM_error {f : α → Except ε β} {err : ε} {xs : List α} (h : xs.mapM f = .error err) :
    ∃ x ∈ xs, f x = .error err := by
  induction xs with
  | nil => cases h
  | cons x xs ih =>
    rw [List.mapM_cons] at h
    rcases bind_error h with h | ⟨y, -, h⟩
    · exact ⟨x, List.mem_cons_self, h⟩
    · rcases bind_error h with h | ⟨ys, -, h⟩
      · obtain ⟨x', hmem, h⟩ := ih h
        exact ⟨x', List.mem_cons_of_mem x hmem, h⟩
      · cases h

theorem ok_of_mapM {f : α → Except ε β} {xs : List α} {ys : List β} (h : xs.mapM f = .ok ys) :
    ∀ x ∈ xs, ∃ y, f x = .ok y := by
  have hall := mapM_ok h
  clear h
  induction hall with
  | nil => exact fun x hx => absurd hx List.not_mem_nil
  | cons hxy _ ih =>
    intro x hx
    rcases List.mem_cons.mp hx with rfl | hx
    · exact ⟨_, hxy⟩
    · exact ih x hx

theorem mapM_of_forall {f : α → Except ε β} {xs : List α} (h : ∀ x ∈ xs, ∃ y, f x = .ok y) :
    ∃ ys, xs.mapM f = .ok ys := by
  induction xs with
  | nil => exact ⟨[], rfl⟩
  | cons x xs ih =>
    obtain ⟨y, hy⟩ := h x List.mem_cons_self
    obtain ⟨ys, hys⟩ := ih fun x' hx' => h x' (List.mem_cons_of_mem x hx')
    exact ⟨y :: ys, by rw [List.mapM_cons, hy, hys]; rfl⟩

/-- What survives a step that may fail: any reflexive relation its successes respect. -/
theorem related_getD {R : α → α → Prop} {a : α} {x : Except ε α} (hrefl : R a a)
    (h : ∀ b, x = .ok b → R a b) : R a (x.toOption.getD a) := by
  cases x with
  | error e => exact hrefl
  | ok b => exact h b rfl

end Fallible
