import Trezarr.Lib.Lines

/-! What the lines of a text start with, read at its line breaks. -/
namespace Text

/-- A reader of line starts: a blank line says nothing, and a line is read up to its break. -/
structure LineReader (α : Type) where
  read : Str → List α
  blank : read [] = []
  line : ∀ {c : Char}, isLineBreak c = true → ∀ l rest, read (l ++ c :: rest) = read l

namespace LineReader

variable {α : Type} (r : LineReader α) {c : Char} {l s t : Str}

/-- What the lines after the first one start with. -/
def later : Str → List α
  | [] => []
  | c :: s => if isLineBreak c then r.read s ++ later s else later s

def starts (s : Str) : List α := (splitlines s).flatMap r.read

theorem read_break (hc : isLineBreak c = true) (s : Str) : r.read (c :: s) = [] :=
  (r.line hc [] s).trans r.blank

theorem later_append_of_no_break (h : ∀ c ∈ l, isLineBreak c = false) (s : Str) :
    r.later (l ++ s) = r.later s := by
  induction l with
  | nil => rfl
  | cons c l ih =>
    have hc := h c List.mem_cons_self
    rw [List.cons_append, later, if_neg (by simp [hc]),
      ih fun d hd => h d (List.mem_cons_of_mem c hd)]

theorem later_of_no_break (h : ∀ c ∈ s, isLineBreak c = false) : r.later s = [] := by
  have happend := r.later_append_of_no_break h []
  rw [List.append_nil] at happend
  exact happend

theorem starts_eq (s : Str) : r.starts s = r.read s ++ r.later s := by
  cases hspans : lineSpans s with
  | nil =>
    cases lineSpans_eq_nil.mp hspans
    simp [starts, splitlines, hspans, r.blank, later]
  | cons span spans =>
    obtain ⟨l, ending⟩ := span
    have hl := not_isLineBreak_of_mem_line (l, ending) (hspans ▸ List.mem_cons_self)
    obtain ⟨rest, rfl, rfl, hend⟩ := lineSpans_cons hspans
    have hrest : r.starts (l ++ (ending ++ rest)) = r.read l ++ r.starts rest := by
      simp [starts, splitlines, hspans]
    rw [hrest, r.later_append_of_no_break hl]
    cases hend with
    | crlf =>
      have hcr : isLineBreak '\r' = true := by decide
      have hlf : isLineBreak '\n' = true := by decide
      have hread : r.read ('\n' :: rest) = [] := r.read_break hlf rest
      simp only [List.cons_append, List.nil_append, r.line hcr, later, hcr, hlf, if_true, hread,
        starts_eq rest]
    | single hc _ =>
      simp only [List.cons_append, List.nil_append, r.line hc, later, hc, if_true, starts_eq rest]
    | finish => simp [later, starts, splitlines, lineSpans]
termination_by s.length
decreasing_by all_goals simp_all +arith

/-- The lines after the first one say what is later. -/
theorem flatMap_tail_splitlines (s : Str) : (splitlines s).tail.flatMap r.read = r.later s := by
  have hstarts := r.starts_eq s
  cases hspans : lineSpans s with
  | nil =>
    cases lineSpans_eq_nil.mp hspans
    simp [splitlines, hspans, later]
  | cons span spans =>
    obtain ⟨l, ending⟩ := span
    obtain ⟨rest, hs, _, hend⟩ := lineSpans_cons hspans
    have hread : r.read s = r.read l := by
      rw [hs]
      cases hend with
      | crlf => exact r.line (by decide) l _
      | single hc _ => exact r.line hc l _
      | finish => simp
    rw [starts, splitlines, hspans, List.map_cons, List.flatMap_cons, hread] at hstarts
    rw [splitlines, hspans, List.map_cons, List.tail_cons]
    exact List.append_cancel_left hstarts

/-- No line start is read past this character. -/
def Stops (c : Char) : Prop := ∀ l rest, r.read (l ++ c :: rest) = r.read l

theorem later_append (h : r.Stops c) (s t : Str) :
    r.later (s ++ c :: t) = r.later s ++ r.later (c :: t) := by
  induction s with
  | nil => rfl
  | cons d s ih =>
    rw [List.cons_append, later, later, ih, h]
    split <;> simp

theorem starts_nil : r.starts [] = [] := rfl

theorem starts_break (s t : Str) : r.starts (s ++ '\n' :: t) = r.starts s ++ r.starts t := by
  have hbreak : isLineBreak '\n' = true := by decide
  have hlater : r.later ('\n' :: t) = r.starts t := by
    rw [later, if_pos hbreak, starts_eq]
  rw [starts_eq, r.line hbreak, r.later_append (r.line hbreak), hlater, starts_eq r s,
    List.append_assoc]

/-- Every part keeps its lines to itself. -/
theorem starts_join (parts : List Str) : r.starts (join "\n" parts) = parts.flatMap r.starts := by
  induction parts with
  | nil => rfl
  | cons part parts ih =>
    cases parts with
    | nil => simp [join]
    | cons next parts =>
      have hjoin : join "\n" (part :: next :: parts) = part ++ '\n' :: join "\n" (next :: parts) := by
        simp [join, List.intercalate]
      rw [hjoin, starts_break, ih]
      rfl

end LineReader

end Text
