import Mathlib.Data.List.Chain

/-! Journals: entries that each name the value they found and the value they left. -/
namespace Journal

variable {E E' V : Type*} {found left : E → V} {found' left' : E' → V} {v w : V} {xs ys : List E}
  {e : E}

/-- The journal leads from `v` to `w`: each entry found what the one before it left. -/
def Replays (found left : E → V) : V → List E → V → Prop
  | v, [], w => w = v
  | v, e :: es, w => found e = v ∧ Replays found left (left e) es w

@[simp] theorem replays_nil : Replays found left v [] w ↔ w = v := Iff.rfl

@[simp] theorem replays_cons : Replays found left v (e :: xs) w ↔
    found e = v ∧ Replays found left (left e) xs w := Iff.rfl

theorem replays_append : Replays found left v (xs ++ ys) w ↔
    ∃ u, Replays found left v xs u ∧ Replays found left u ys w := by
  induction xs generalizing v with
  | nil => simp
  | cons e xs ih => simp only [List.cons_append, replays_cons, ih, exists_and_left, and_assoc]

theorem Replays.append {u : V} (h : Replays found left v xs u) (h' : Replays found left u ys w) :
    Replays found left v (xs ++ ys) w :=
  replays_append.mpr ⟨u, h, h'⟩

theorem Replays.isChain (h : Replays found left v xs w) :
    xs.IsChain fun e e' => found e' = left e := by
  induction xs generalizing v with
  | nil => exact .nil
  | cons e xs ih =>
    cases xs with
    | nil => exact .singleton e
    | cons e' xs => exact .cons_cons h.2.1 (ih h.2)

theorem Replays.last (h : Replays found left v xs w) : ∀ e ∈ xs.getLast?, left e = w := by
  intro e he
  obtain ⟨ys, rfl⟩ := List.getLast?_eq_some_iff.mp he
  obtain ⟨u, -, -, hw⟩ := replays_append.mp h
  exact hw.symm

/-- Leaving out entries that changed nothing, and reading the others another way. -/
theorem Replays.filterMap {g : E → Option E'} (h : Replays found left v xs w)
    (hkept : ∀ e ∈ xs, ∀ e' ∈ g e, found' e' = found e ∧ left' e' = left e)
    (hout : ∀ e ∈ xs, g e = none → left e = found e) :
    Replays found' left' v (xs.filterMap g) w := by
  induction xs generalizing v with
  | nil => exact h
  | cons e xs ih =>
    obtain ⟨hfound, hrest⟩ := h
    have htail := ih hrest (fun e he => hkept e (List.mem_cons_of_mem _ he))
      fun e he => hout e (List.mem_cons_of_mem _ he)
    cases hg : g e with
    | none =>
      rw [List.filterMap_cons_none hg]
      rwa [hout e List.mem_cons_self hg, hfound] at htail
    | some e' =>
      obtain ⟨hf, hl⟩ := hkept e List.mem_cons_self e' hg
      rw [List.filterMap_cons_some hg, replays_cons, hf, hl]
      exact ⟨hfound, htail⟩

end Journal
