import Mathlib.Data.List.Forall2
import Mathlib.Data.List.SplitLengths

/-! A list cut where the parts of another list end. -/
namespace Windows

variable {α β γ : Type*} {parts : List (List α)} {part : List α} {ys : List β}

/-- The elements that stand where those of each part stand. -/
def cutLike (parts : List (List α)) (ys : List β) : List (List β) :=
  (parts.map List.length).splitLengths ys

@[simp] theorem cutLike_nil : cutLike ([] : List (List α)) ys = [] := rfl

@[simp] theorem cutLike_cons : cutLike (part :: parts) ys =
    ys.take part.length :: cutLike parts (ys.drop part.length) := by
  simp [cutLike]

theorem cutLike_map (f : β → γ) :
    cutLike parts (ys.map f) = (cutLike parts ys).map (List.map f) := by
  induction parts generalizing ys with
  | nil => rfl
  | cons part parts ih =>
    rw [cutLike_cons, cutLike_cons, List.map_cons, List.map_take, ← ih, List.map_drop]

/-- A list cut like its own parts falls into them. -/
theorem cutLike_flatten (parts : List (List α)) : cutLike parts parts.flatten = parts := by
  induction parts with
  | nil => rfl
  | cons part parts ih => simp [ih]

theorem flatten_cutLike (h : ys.length = parts.flatten.length) : (cutLike parts ys).flatten = ys := by
  apply List.flatten_splitLengths
  rw [h, List.length_flatten]

/-- Results of the size of their tasks, put together: each task meets its own again. -/
theorem forall₂_zip {τ : Type*} (f : τ → List α) {R : τ → List β → Prop} {tasks : List τ}
    {results : List (List β)} (h : List.Forall₂ R tasks results)
    (hlen : ∀ task own, R task own → own.length = (f task).length) :
    List.Forall₂ (fun task own => f task = own.map Prod.fst ∧ R task (own.map Prod.snd)) tasks
      (cutLike (tasks.map f) ((tasks.flatMap f).zip results.flatten)) := by
  induction h with
  | nil => exact .nil
  | @cons task own tasks results htask _ ih =>
    have hhead := hlen task own htask
    have hwindow : ((f task).zip own).length = (f task).length := by
      rw [List.length_zip, hhead, Nat.min_self]
    rw [List.map_cons, cutLike_cons, List.flatMap_cons, List.flatten_cons,
      List.zip_append hhead.symm, List.take_left' hwindow, List.drop_left' hwindow]
    refine .cons ⟨(List.map_fst_zip hhead.ge).symm, ?_⟩ ih
    rw [List.map_snd_zip hhead.le]
    exact htask

/-- What each part makes of its window by place, put together, is made of the whole list. -/
theorem flatMap_cutLike (parts : List (List α)) (ys : List β) (f : Option β → γ) :
    ((parts.zip (cutLike parts ys)).flatMap fun (part, own) =>
      (List.range part.length).map fun j => f own[j]?) =
      (List.range parts.flatten.length).map fun n => f ys[n]? := by
  induction parts generalizing ys with
  | nil => rfl
  | cons part parts ih =>
    rw [cutLike_cons, List.zip_cons_cons, List.flatMap_cons, ih, List.flatten_cons,
      List.length_append, List.range_add, List.map_append, List.map_map]
    congr 1
    · refine List.map_congr_left fun j hj => ?_
      rw [List.getElem?_take_of_lt (List.mem_range.mp hj)]
    · refine List.map_congr_left fun j _ => ?_
      rw [Function.comp_apply, List.getElem?_drop]

end Windows
