import Mathlib.Data.List.DropRight
import Trezarr.Lib.Unicode

/-! Paths taken apart: what they start from, and the components below it. -/
namespace PurePaths
open Text

/-- Where a path starts from, and what is below. -/
structure PurePath where
  root : Str
  tail : List Str
  deriving DecidableEq, Repr

/-- Slashes in front are one slash, but two of them are kept. -/
def root (s : Str) : Str :=
  match (s.takeWhile (· = '/')).length with
  | 0 => []
  | 2 => ['/', '/']
  | _ => ['/']

/-- Components between slashes, without the empty ones and the dots. -/
def tail (s : Str) : List Str := (s.splitOn '/').filter fun part => part ≠ [] ∧ part ≠ ['.']

def purePath (s : Str) : PurePath := ⟨root s, tail s⟩

/-- What may follow a whole component. -/
def AtBoundary (rest : Str) : Prop := rest = [] ∨ rest.head? = some '/'

variable {front back rest s : Str}

theorem tail_append_slash (front back : Str) :
    tail (front ++ '/' :: back) = tail front ++ tail back := by
  unfold tail
  rw [List.splitOn_append_cons_self, List.filter_append]

@[simp] theorem tail_slash (s : Str) : tail ('/' :: s) = tail s := tail_append_slash [] s

/-- Below a path and then below another one. -/
theorem tail_append (h : AtBoundary rest) : tail (front ++ rest) = tail front ++ tail rest := by
  rcases h with rfl | hslash
  · rw [List.append_nil]
    exact (List.append_nil _).symm
  · obtain ⟨back, rfl⟩ := List.head?_eq_some_iff.mp hslash
    rw [tail_append_slash, tail_slash]

theorem tail_slashes (h : ∀ c ∈ s, c = '/') : tail s = [] := by
  induction s with
  | nil => rfl
  | cons c s ih =>
    obtain ⟨rfl, hs⟩ := List.forall_mem_cons.mp h
    rw [tail_slash]
    exact ih hs

theorem atBoundary_slashes (h : ∀ c ∈ s, c = '/') : AtBoundary s := by
  cases s with
  | nil => exact .inl rfl
  | cons c s =>
    obtain ⟨rfl, _⟩ := List.forall_mem_cons.mp h
    exact .inr rfl

/-- What follows a component has no say in where the path starts from. -/
theorem root_append (h : ¬ ∀ c ∈ front, c = '/') : root (front ++ back) = root front := by
  have hlength : (front.takeWhile (· = '/')).length ≠ front.length := by
    intro hall
    refine h fun c hc => ?_
    rw [← (List.takeWhile_prefix _).eq_of_length hall] at hc
    exact of_decide_eq_true (List.mem_takeWhile_imp (p := fun c => decide (c = '/')) hc)
  unfold root
  rw [List.takeWhile_append, if_neg hlength]

end PurePaths
