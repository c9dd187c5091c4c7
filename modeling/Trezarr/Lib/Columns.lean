import Trezarr.Lib.Text

/-! Columns: the parts of a text before its first separators. -/
namespace Text

theorem takeWhile_dropWhile_ne {sep : Char} {front : Str} (h : sep ∉ front) (s : Str) :
    (front ++ sep :: s).takeWhile (· ≠ sep) = front ∧
      (front ++ sep :: s).dropWhile (· ≠ sep) = sep :: s := by
  have hall : ∀ c ∈ front, decide (c ≠ sep) = true :=
    fun c hc => decide_eq_true fun heq => h (heq ▸ hc)
  rw [List.takeWhile_append_of_pos hall, List.dropWhile_append_of_pos hall]
  simp

/-- Whatever follows the columns is the last part. -/
theorem splitMax_columns {sep : Char} {front : List Str} (h : ∀ column ∈ front, sep ∉ column)
    (t : Str) : splitMax sep front.length ((front.flatMap fun column => column ++ [sep]) ++ t) =
      front ++ [t] := by
  induction front with
  | nil => rfl
  | cons column front ih =>
    have hrest := ih fun c hc => h c (List.mem_cons_of_mem column hc)
    obtain ⟨htake, hdrop⟩ := takeWhile_dropWhile_ne (h column List.mem_cons_self)
      ((front.flatMap fun column => column ++ [sep]) ++ t)
    have hcons : ((column :: front).flatMap fun column => column ++ [sep]) ++ t =
        column ++ sep :: ((front.flatMap fun column => column ++ [sep]) ++ t) := by
      simp
    rw [hcons, List.length_cons]
    simp only [splitMax, htake, hdrop, hrest]
    rfl

/-- A text with enough separators is its columns and the rest. -/
theorem exists_columns {sep : Char} : ∀ {k : ℕ} {s : Str}, k ≤ s.count sep →
    ∃ (front : List Str) (text : Str), front.length = k ∧ (∀ column ∈ front, sep ∉ column) ∧
      s = (front.flatMap fun column => column ++ [sep]) ++ text := by
  intro k
  induction k with
  | zero => exact fun {s} _ => ⟨[], s, rfl, nofun, rfl⟩
  | succ k ih =>
    intro s hcount
    have hmem : sep ∈ s := List.count_pos_iff.mp (by omega)
    obtain ⟨column, rest, rfl, hcolumn⟩ := List.eq_append_cons_of_mem hmem
    have hrest : k ≤ rest.count sep := by
      rw [List.count_append, List.count_eq_zero.mpr hcolumn, List.count_cons_self] at hcount
      omega
    obtain ⟨front, text, hlen, hall, rfl⟩ := ih hrest
    refine ⟨column :: front, text, by rw [List.length_cons, hlen], ?_, by simp⟩
    exact List.forall_mem_cons.mpr ⟨hcolumn, hall⟩

/-- Columns joined by a separator, with one after the last. -/
theorem join_columns {sep : Char} {front : List Str} (h : front ≠ []) :
    join [sep] front ++ [sep] = front.flatMap fun column => column ++ [sep] := by
  induction front with
  | nil => exact absurd rfl h
  | cons column front ih =>
    cases front with
    | nil => simp [join]
    | cons next front =>
      have hrest := ih (List.cons_ne_nil next front)
      unfold join at hrest ⊢
      rw [List.flatMap_cons, ← hrest, List.intercalate_cons_cons]
      simp

end Text
