import Mathlib.Data.List.Nodup

/-! Relational tables whose rows carry an integer primary key. -/

class Keyed (α : Type*) where
  id : α → ℕ
  withId : ℕ → α → α
  id_withId : ∀ n a, id (withId n a) = n

structure Table (α : Type*) [Keyed α] where
  rows : List α
  nodup : (rows.map Keyed.id).Nodup

namespace Table

variable {α : Type*} [Keyed α] {t : Table α} {a b : α} {n m : ℕ}

def empty : Table α := ⟨[], List.nodup_nil⟩

def get? (t : Table α) (n : ℕ) : Option α := t.rows.find? (Keyed.id · = n)

def select (t : Table α) (p : α → Bool) : List α := t.rows.filter p

/-- One more than the largest key in use. -/
def nextId (t : Table α) : ℕ := t.rows.foldr (fun a n => max (Keyed.id a + 1) n) 1

theorem id_lt_nextId (h : a ∈ t.rows) : Keyed.id a < t.nextId := by
  obtain ⟨rows, hn⟩ := t
  simp only [nextId] at *
  clear hn
  induction rows with
  | nil => simp at h
  | cons b rows ih =>
    rcases List.mem_cons.mp h with rfl | h
    · exact Nat.lt_of_lt_of_le (Nat.lt_succ_self _) (Nat.le_max_left _ _)
    · exact Nat.lt_of_lt_of_le (ih h) (Nat.le_max_right _ _)

/-- The stored row and the table with it; the row's own key is replaced by a fresh one. -/
def insert (t : Table α) (a : α) : α × Table α :=
  (Keyed.withId t.nextId a,
    { rows := t.rows ++ [Keyed.withId t.nextId a]
      nodup := by
        rw [List.map_append, List.nodup_append]
        refine ⟨t.nodup, by simp, ?_⟩
        rintro _ ha _ hb rfl
        obtain ⟨b, hm, he⟩ := List.mem_map.mp ha
        have hlt := id_lt_nextId hm
        simp only [List.map_cons, List.map_nil, List.mem_singleton, Keyed.id_withId] at hb
        omega })

/-- The row with the same key, if there is one, becomes `a`. -/
def put (t : Table α) (a : α) : Table α where
  rows := t.rows.map fun b => if Keyed.id b = Keyed.id a then a else b
  nodup := by
    have he : (fun b => Keyed.id (if Keyed.id b = Keyed.id a then a else b)) = Keyed.id (α := α) := by
      funext b
      split <;> simp_all
    simpa [List.map_map, Function.comp_def, he] using t.nodup

/-- The rows without the one under the key. -/
def erase (t : Table α) (n : ℕ) : Table α where
  rows := t.rows.filter (Keyed.id · ≠ n)
  nodup := t.nodup.sublist (List.filter_sublist.map _)

@[simp] theorem get?_empty : (empty : Table α).get? n = none := rfl

theorem mem_iff_get? : a ∈ t.rows ↔ t.get? (Keyed.id a) = some a := by
  constructor
  · intro h
    cases hf : t.get? (Keyed.id a) with
    | none => simpa using List.find?_eq_none.mp hf a h
    | some b =>
      have hk : Keyed.id b = Keyed.id a := by simpa using List.find?_some hf
      rw [List.inj_on_of_nodup_map t.nodup (List.mem_of_find?_eq_some hf) h hk]
  · exact List.mem_of_find?_eq_some

theorem id_of_get? (h : t.get? n = some a) : Keyed.id a = n := by
  simpa using List.find?_some h

theorem get?_id (h : t.get? n = some a) : t.get? (Keyed.id a) = some a := by
  rw [id_of_get? h]
  exact h

theorem mem_of_get? (h : t.get? n = some a) : a ∈ t.rows := List.mem_of_find?_eq_some h

theorem get?_lt_nextId (h : t.get? n = some a) : n < t.nextId := by
  rw [← id_of_get? h]
  exact id_lt_nextId (mem_of_get? h)

theorem insert_fst : (t.insert a).1 = Keyed.withId t.nextId a := rfl

theorem get?_insert :
    (t.insert a).2.get? n = if n = t.nextId then some (t.insert a).1 else t.get? n := by
  simp only [get?, insert, List.find?_append]
  split
  · next h =>
    subst h
    have hn : t.rows.find? (fun b => decide (Keyed.id b = t.nextId)) = none := by
      rw [List.find?_eq_none]
      intro b hb
      have := id_lt_nextId hb
      simp only [decide_eq_true_eq]
      omega
    simp [hn, Keyed.id_withId]
  · next h => simp [Keyed.id_withId, Ne.symm h]

theorem get?_nextId : t.get? t.nextId = none := by
  cases h : t.get? t.nextId with
  | none => rfl
  | some a => exact (Nat.lt_irrefl _ (get?_lt_nextId h)).elim

theorem get?_insert_self : (t.insert a).2.get? t.nextId = some (t.insert a).1 :=
  get?_insert.trans (if_pos rfl)

theorem get?_insert_of_ne (h : n ≠ t.nextId) : (t.insert a).2.get? n = t.get? n :=
  get?_insert.trans (if_neg h)

theorem get?_put : (t.put a).get? n =
    if n = Keyed.id a then (t.get? n).map fun _ => a else t.get? n := by
  obtain ⟨rows, hn⟩ := t
  simp only [get?, put]
  clear hn
  induction rows with
  | nil => simp
  | cons b rows ih =>
    by_cases hb : Keyed.id b = n <;> by_cases ha : Keyed.id b = Keyed.id a <;>
      by_cases hc : n = Keyed.id a <;>
      simp_all

theorem get?_erase : (t.erase n).get? m = if m = n then none else t.get? m := by
  simp only [get?, erase, List.find?_filter]
  split
  next h =>
    subst h
    rw [List.find?_eq_none]
    simp
  next h =>
    congr 1
    funext b
    by_cases hb : Keyed.id b = m
    · simp [hb, h]
    · simp [hb]

theorem get?_put_self (h : t.get? (Keyed.id a) = some b) :
    (t.put a).get? (Keyed.id a) = some a := by
  rw [get?_put, if_pos rfl, h]
  rfl

theorem get?_put_of_ne (h : n ≠ Keyed.id a) : (t.put a).get? n = t.get? n :=
  get?_put.trans (if_neg h)

theorem put_self (h : t.get? (Keyed.id a) = some a) : t.put a = t := by
  obtain ⟨rows, hn⟩ := t
  simp only [put, mk.injEq]
  refine (List.map_congr_left fun b hb => ?_).trans (List.map_id rows)
  split
  · next he => exact List.inj_on_of_nodup_map hn (mem_of_get? h) hb he.symm
  · rfl

theorem eq_of_id_eq (h : t.get? (Keyed.id a) = some b) {c : α} (hc : c ∈ t.rows)
    (he : Keyed.id c = Keyed.id a) : c = b :=
  List.inj_on_of_nodup_map t.nodup hc (mem_of_get? h) (he.trans (id_of_get? h).symm)

/-- A replacement that agrees with the old row on `f` leaves the column `f`. -/
theorem map_put {β : Type*} {f : α → β} (h : t.get? (Keyed.id a) = some b) (hf : f a = f b) :
    (t.put a).rows.map f = t.rows.map f := by
  simp only [put, List.map_map]
  refine List.map_congr_left fun c hc => ?_
  simp only [Function.comp_apply]
  split
  · next he => rw [hf, eq_of_id_eq h hc he]
  · rfl

theorem select_put {p : α → Bool} (h : t.get? (Keyed.id a) = some b) (hp : p a = p b) :
    (t.put a).select p =
      (t.select p).map fun c => if Keyed.id c = Keyed.id a then a else c := by
  simp only [put, select, List.filter_map]
  refine congrArg (List.map _) (List.filter_congr fun c hc => ?_)
  simp only [Function.comp_apply]
  split
  · next he => rw [hp, eq_of_id_eq h hc he]
  · rfl

/-- A replacement that agrees with the old row on `p`, and on `f` where `p` holds. -/
theorem map_select_put {β : Type*} {f : α → β} {p : α → Bool} (h : t.get? (Keyed.id a) = some b)
    (hp : p a = p b) (hf : p b → f a = f b) :
    ((t.put a).select p).map f = (t.select p).map f := by
  rw [select_put h hp, List.map_map]
  refine List.map_congr_left fun c hc => ?_
  simp only [Function.comp_apply]
  split
  · next he =>
    obtain ⟨hm, hs⟩ := List.mem_filter.mp hc
    rw [eq_of_id_eq h hm he] at hs ⊢
    exact hf hs
  · rfl

/-- The only row of a selection, replaced by another that belongs to it. -/
theorem select_put_single {p : α → Bool} (h : t.select p = [b]) (hk : Keyed.id b = Keyed.id a)
    (hp : p a = true) : (t.put a).select p = [a] := by
  have hb : b ∈ t.select p := by simp [h]
  obtain ⟨hm, hs⟩ := List.mem_filter.mp hb
  have hget : t.get? (Keyed.id a) = some b := hk ▸ mem_iff_get?.mp hm
  rw [select_put hget (hp.trans hs.symm), h, List.map_singleton, if_pos hk]

theorem select_insert_of_not {p : α → Bool} (h : p (t.insert a).1 = false) :
    (t.insert a).2.select p = t.select p := by
  have : p (Keyed.withId t.nextId a) = false := h
  simp [insert, select, List.filter_append, this]

theorem map_insert {β : Type*} {f : α → β} :
    (t.insert a).2.rows.map f = t.rows.map f ++ [f (t.insert a).1] := by
  simp [insert]

theorem get?_of_rows_append {u : Table α} (hu : u.rows = t.rows ++ [b])
    (h : t.get? n = some a) : u.get? n = some a := by
  rw [get?, hu, List.find?_append, ← get?, h, Option.some_or]

/-- A new row that is rewritten at once. -/
theorem rows_put_insert (h : Keyed.id b = t.nextId) :
    ((t.insert a).2.put b).rows = t.rows ++ [b] := by
  have hold : t.rows.map (fun c => if Keyed.id c = Keyed.id b then b else c) = t.rows := by
    refine (List.map_congr_left fun c hc => ?_).trans (List.map_id _)
    have := id_lt_nextId hc
    rw [if_neg (by omega), id_eq]
  have hnew : (if Keyed.id (Keyed.withId t.nextId a) = Keyed.id b then b
      else Keyed.withId t.nextId a) = b := if_pos ((Keyed.id_withId _ _).trans h.symm)
  change (t.rows ++ [Keyed.withId t.nextId a]).map _ = _
  rw [List.map_append, hold, List.map_singleton, hnew]

/-- The rows of a table around the one that is replaced. -/
theorem rows_put (h : t.get? (Keyed.id a) = some b) :
    ∃ before after, t.rows = before ++ b :: after ∧ (t.put a).rows = before ++ a :: after := by
  obtain ⟨before, after, hrows⟩ := List.append_of_mem (mem_of_get? h)
  refine ⟨before, after, hrows, ?_⟩
  have hd := t.nodup
  rw [hrows, List.map_append, List.map_cons, List.nodup_middle, List.nodup_cons] at hd
  have hkeep : ∀ c, c ∈ before ∨ c ∈ after →
      (if Keyed.id c = Keyed.id a then a else c) = c := by
    intro c hc
    refine if_neg fun he => hd.1 ?_
    rw [id_of_get? h, ← he, ← List.map_append]
    exact List.mem_map_of_mem (List.mem_append.mpr hc)
  change t.rows.map (fun c => if Keyed.id c = Keyed.id a then a else c) = _
  rw [hrows, List.map_append, List.map_cons, if_pos (id_of_get? h),
    List.map_congr_left fun c hc => hkeep c (Or.inl hc),
    List.map_congr_left fun c hc => hkeep c (Or.inr hc), List.map_id', List.map_id']

/-- A replacement counts where the old row counted. -/
theorem length_select_put (h : t.get? (Keyed.id a) = some b) (p : α → Bool) :
    ((t.put a).select p).length + (if p b then 1 else 0) =
      (t.select p).length + (if p a then 1 else 0) := by
  obtain ⟨before, after, hrows, hput⟩ := rows_put h
  simp only [select, hrows, hput, ← List.countP_eq_length_filter, List.countP_append,
    List.countP_cons]
  omega

theorem length_select_insert (p : α → Bool) :
    ((t.insert a).2.select p).length =
      (t.select p).length + (if p (t.insert a).1 then 1 else 0) := by
  simp only [select, insert, List.filter_append, List.length_append, List.filter_singleton]
  by_cases hp : p (Keyed.withId t.nextId a) = true <;> simp [hp]

end Table
