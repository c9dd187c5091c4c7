import Mathlib.Data.List.Induction
import Mathlib.Data.List.Nodup

/-! Insertion-ordered dictionaries: a repeated key keeps its place and takes the new value. -/

/-- What is kept of a list has keys among the list's own. -/
theorem map_filterMap_sublist {α β γ : Type*} {f : α → Option β} {g : β → γ} {k : α → γ}
    (h : ∀ a b, f a = some b → g b = k a) (xs : List α) :
    ((xs.filterMap f).map g).Sublist (xs.map k) := by
  induction xs with
  | nil => exact .slnil
  | cons x xs ih =>
    cases hx : f x with
    | none =>
      rw [List.filterMap_cons_none hx, List.map_cons]
      exact ih.cons _
    | some b =>
      rw [List.filterMap_cons_some hx, List.map_cons, List.map_cons, h x b hx]
      exact ih.cons_cons _

/-- A dictionary lists each key once, in the order of first insertion. -/
structure Dict (κ ν : Type*) where
  entries : List (κ × ν)
  nodup : (entries.map Prod.fst).Nodup

namespace Dict

variable {κ ν : Type*} [DecidableEq κ] {d : Dict κ ν} {k k' : κ} {v v' : ν}

def setEntries (k : κ) (v : ν) : List (κ × ν) → List (κ × ν)
  | [] => [(k, v)]
  | (k', v') :: xs => if k' = k then (k', v) :: xs else (k', v') :: setEntries k v xs

theorem mem_keys_setEntries {k k' : κ} {v : ν} {xs : List (κ × ν)} :
    k' ∈ (setEntries k v xs).map Prod.fst ↔ k' = k ∨ k' ∈ xs.map Prod.fst := by
  induction xs with
  | nil => simp [setEntries]
  | cons p xs ih =>
    obtain ⟨a, b⟩ := p
    simp only [setEntries]
    split
    · next he => subst he; simp
    · simp only [List.map_cons, List.mem_cons, ih]; tauto

theorem nodup_setEntries {k : κ} {v : ν} {xs : List (κ × ν)} (h : (xs.map Prod.fst).Nodup) :
    ((setEntries k v xs).map Prod.fst).Nodup := by
  induction xs with
  | nil => simp [setEntries]
  | cons p xs ih =>
    obtain ⟨a, b⟩ := p
    simp only [List.map_cons, List.nodup_cons] at h
    simp only [setEntries]
    split
    · simpa using h
    · next hne =>
      simp only [List.map_cons, List.nodup_cons, mem_keys_setEntries]
      exact ⟨fun hm => hm.elim hne h.1, ih h.2⟩

def empty : Dict κ ν := ⟨[], List.nodup_nil⟩

def get? (d : Dict κ ν) (k : κ) : Option ν := (d.entries.find? (·.1 = k)).map Prod.snd

def set (d : Dict κ ν) (k : κ) (v : ν) : Dict κ ν :=
  ⟨setEntries k v d.entries, nodup_setEntries d.nodup⟩

def keys (d : Dict κ ν) : List κ := d.entries.map Prod.fst

def values (d : Dict κ ν) : List ν := d.entries.map Prod.snd

def ofList (xs : List (κ × ν)) : Dict κ ν := xs.foldl (fun d p => d.set p.1 p.2) empty

theorem get?_empty : (empty : Dict κ ν).get? k = none := rfl

theorem get?_set_self : (d.set k v).get? k = some v := by
  obtain ⟨xs, hx⟩ := d
  simp only [set, get?]
  clear hx
  induction xs with
  | nil => simp [setEntries]
  | cons p xs ih =>
    obtain ⟨a, b⟩ := p
    simp only [setEntries]
    split
    · next he => simp [he]
    · next hne => simpa [List.find?_cons, hne] using ih

theorem get?_set_of_ne (h : k' ≠ k) : (d.set k v).get? k' = d.get? k' := by
  obtain ⟨xs, hx⟩ := d
  simp only [set, get?]
  clear hx
  induction xs with
  | nil => simp [setEntries, Ne.symm h]
  | cons p xs ih =>
    obtain ⟨a, b⟩ := p
    simp only [setEntries]
    split
    · next he => simp [he, Ne.symm h]
    · by_cases hk : a = k'
      · simp [hk]
      · simpa [List.find?_cons, hk] using ih

@[simp] theorem get?_set : (d.set k v).get? k' = if k' = k then some v else d.get? k' := by
  split
  · next he => subst he; exact get?_set_self
  · next hne => exact get?_set_of_ne hne

/-- Of the pairs set for a key the last one counts. -/
theorem get?_foldl_set {xs : List (κ × ν)} :
    (xs.foldl (fun d p => d.set p.1 p.2) d).get? k =
      ((xs.filter (·.1 = k)).getLast?.map Prod.snd).or (d.get? k) := by
  induction xs using List.reverseRecOn with
  | nil => rfl
  | append_singleton xs p ih =>
    rw [List.foldl_append, List.foldl_cons, List.foldl_nil, get?_set, List.filter_append]
    by_cases h : p.1 = k
    · simp [h]
    · simp [h, Ne.symm h, ih]

theorem get?_ofList {xs : List (κ × ν)} :
    (ofList xs).get? k = (xs.filter (·.1 = k)).getLast?.map Prod.snd := by
  rw [ofList, get?_foldl_set, get?_empty, Option.or_none]

theorem get?_ofList_map {xs : List κ} {g : κ → ν} :
    (ofList (xs.map fun k => (k, g k))).get? k = if k ∈ xs then some (g k) else none := by
  have hf : (xs.map fun k => (k, g k)).filter (·.1 = k) =
      (xs.filter (· = k)).map fun k => (k, g k) := by
    rw [List.filter_map]
    rfl
  rw [get?_ofList, hf, List.getLast?_map, Option.map_map]
  split
  · next hm =>
    obtain ⟨a, ha⟩ : ∃ a, (xs.filter (· = k)).getLast? = some a := by
      rw [← Option.isSome_iff_exists, List.getLast?_isSome]
      exact List.ne_nil_of_mem (List.mem_filter.mpr ⟨hm, by simp⟩)
    have hk : a = k := by simpa using (List.mem_filter.mp (List.mem_of_getLast? ha)).2
    simp [ha, hk]
  · next hm =>
    have hnil : xs.filter (· = k) = [] := by
      rw [List.filter_eq_nil_iff]
      intro a ha he
      rw [decide_eq_true_eq] at he
      exact hm (he ▸ ha)
    simp [hnil]

theorem setEntries_of_not_mem {xs : List (κ × ν)} (h : k ∉ xs.map Prod.fst) :
    setEntries k v xs = xs ++ [(k, v)] := by
  induction xs with
  | nil => rfl
  | cons p xs ih =>
    rw [List.map_cons, List.mem_cons, not_or] at h
    obtain ⟨hne, hxs⟩ := h
    rw [setEntries, if_neg (Ne.symm hne), ih hxs]
    rfl

theorem entries_foldl_set {xs : List (κ × ν)} : ∀ {d : Dict κ ν},
    ((d.entries ++ xs).map Prod.fst).Nodup →
      (xs.foldl (fun d p => d.set p.1 p.2) d).entries = d.entries ++ xs := by
  induction xs with
  | nil =>
    intro d _
    exact (List.append_nil _).symm
  | cons p xs ih =>
    intro d h
    have hnot : p.1 ∉ d.entries.map Prod.fst := by
      intro hmem
      rw [List.map_append, List.map_cons] at h
      exact (List.nodup_append.mp h).2.2 _ hmem _ List.mem_cons_self rfl
    have hset : (d.set p.1 p.2).entries = d.entries ++ [p] := setEntries_of_not_mem hnot
    rw [List.foldl_cons, ih (by rwa [hset, List.append_assoc]), hset, List.append_assoc]
    rfl

/-- Pairs whose keys are all different are the entries. -/
theorem entries_ofList {xs : List (κ × ν)} (h : (xs.map Prod.fst).Nodup) :
    (ofList xs).entries = xs :=
  entries_foldl_set h

theorem ofList_entries (d : Dict κ ν) : ofList d.entries = d := by
  obtain ⟨xs, hxs⟩ := d
  have hentries : (ofList xs).entries = xs := entries_ofList hxs
  cases hofList : ofList xs with
  | mk ys hys =>
    rw [hofList] at hentries
    subst hentries
    rfl

theorem mem_entries_iff : (k, v) ∈ d.entries ↔ d.get? k = some v := by
  obtain ⟨xs, hx⟩ := d
  simp only [get?]
  induction xs with
  | nil => simp
  | cons p xs ih =>
    obtain ⟨a, b⟩ := p
    simp only [List.map_cons, List.nodup_cons] at hx
    by_cases hk : a = k
    · subst hk
      have hnot : (a, v) ∉ xs := fun hm => hx.1 (List.mem_map.mpr ⟨_, hm, rfl⟩)
      simp [hnot, eq_comm]
    · simpa [List.find?_cons, hk, Ne.symm hk] using ih hx.2

theorem mem_values_iff : v ∈ d.values ↔ ∃ k, d.get? k = some v := by
  simp only [values, List.mem_map, Prod.exists, exists_eq_right, mem_entries_iff]

theorem mem_keys_iff : k ∈ d.keys ↔ ∃ v, d.get? k = some v := by
  simp only [keys, List.mem_map, Prod.exists, exists_and_right, exists_eq_right, mem_entries_iff]

section Map

variable {κ' ν' : Type*} [DecidableEq κ'] {f : κ → κ'} {g : ν → ν'}

omit [DecidableEq κ] [DecidableEq κ'] in
theorem nodup_map_keys (hf : Function.Injective f) {xs : List (κ × ν)}
    (h : (xs.map Prod.fst).Nodup) : ((xs.map (Prod.map f g)).map Prod.fst).Nodup := by
  have hkeys : (xs.map (Prod.map f g)).map Prod.fst = (xs.map Prod.fst).map f := by
    rw [List.map_map, List.map_map]
    rfl
  rw [hkeys]
  exact h.map hf

/-- The same entries under other keys and with other values. -/
def map (f : κ → κ') (g : ν → ν') (hf : Function.Injective f) (d : Dict κ ν) : Dict κ' ν' :=
  ⟨d.entries.map (Prod.map f g), nodup_map_keys hf d.nodup⟩

theorem setEntries_map (hf : Function.Injective f) (k : κ) (v : ν) (xs : List (κ × ν)) :
    setEntries (f k) (g v) (xs.map (Prod.map f g)) = (setEntries k v xs).map (Prod.map f g) := by
  induction xs with
  | nil => rfl
  | cons p xs ih =>
    obtain ⟨k', v'⟩ := p
    rw [List.map_cons, setEntries, Prod.map_apply, setEntries]
    by_cases hk : k' = k
    · rw [if_pos hk, if_pos (congrArg f hk), List.map_cons, Prod.map_apply]
    · rw [if_neg hk, if_neg fun heq => hk (hf heq), List.map_cons, Prod.map_apply, ih]

theorem map_set (hf : Function.Injective f) (k : κ) (v : ν) :
    (d.map f g hf).set (f k) (g v) = (d.set k v).map f g hf := by
  simp only [set, map, setEntries_map hf]

theorem get?_map (hf : Function.Injective f) (k : κ) :
    (d.map f g hf).get? (f k) = (d.get? k).map g := by
  have hkey : (fun p : κ' × ν' => decide (p.1 = f k)) ∘ Prod.map f g =
      fun p => decide (p.1 = k) := by
    funext p
    exact decide_eq_decide.mpr hf.eq_iff
  rw [get?, map, List.find?_map, hkey, get?, Option.map_map, Option.map_map]
  rfl

end Map

end Dict
