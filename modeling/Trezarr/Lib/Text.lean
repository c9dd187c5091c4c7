import Mathlib.Data.List.DropRight
import Mathlib.Data.List.Infix
import Trezarr.Lib.Unicode

/-! String operations of the source language. -/
namespace Text

def lstrip (s : Str) : Str := s.dropWhile isSpace

def rstrip (s : Str) : Str := s.rdropWhile isSpace

def strip (s : Str) : Str := rstrip (lstrip s)

/-- Words between runs of white space. -/
def splitWords (s : Str) : List Str := (s.splitOnP isSpace).filter (· ≠ [])

def join (sep : Str) (parts : List Str) : Str := sep.intercalate parts

/-- At most `n` splits, from the left. -/
def splitMax (sep : Char) : ℕ → Str → List Str
  | 0, s => [s]
  | n + 1, s =>
    match s.dropWhile (· ≠ sep) with
    | [] => [s]
    | _ :: rest => s.takeWhile (· ≠ sep) :: splitMax sep n rest

def contains (s part : Str) : Bool := part <:+: s

/-- The first occurrence replaced. -/
def replaceFirst (old new : Str) : Str → Str
  | [] => if old = [] then new else []
  | c :: s =>
    if old <+: c :: s then new ++ (c :: s).drop old.length else c :: replaceFirst old new s

section LastSeparator

variable {sep : Char} {front back : Str}

theorem rdropWhile_ne_append (h : sep ∉ back) :
    (front ++ sep :: back).rdropWhile (· ≠ sep) = front ++ [sep] := by
  have hall : ∀ c ∈ back.reverse, decide (c ≠ sep) = true := by
    intro c hc
    exact decide_eq_true fun heq => h (heq ▸ List.mem_reverse.mp hc)
  unfold List.rdropWhile
  rw [List.reverse_append, List.reverse_cons, List.append_assoc,
    List.dropWhile_append_of_pos hall]
  simp

theorem rtakeWhile_ne_append (h : sep ∉ back) :
    (front ++ sep :: back).rtakeWhile (· ≠ sep) = back := by
  have hall : ∀ c ∈ back.reverse, decide (c ≠ sep) = true := by
    intro c hc
    exact decide_eq_true fun heq => h (heq ▸ List.mem_reverse.mp hc)
  unfold List.rtakeWhile
  rw [List.reverse_append, List.reverse_cons, List.append_assoc,
    List.takeWhile_append_of_pos hall]
  simp

/-- A text is split at its last separator in one way. -/
theorem last_split_inj {front' back' : Str} (hback : sep ∉ back) (hback' : sep ∉ back')
    (h : front ++ sep :: back = front' ++ sep :: back') : front = front' ∧ back = back' := by
  have hr := congrArg (List.rtakeWhile (· ≠ sep)) h
  rw [rtakeWhile_ne_append hback, rtakeWhile_ne_append hback'] at hr
  subst hr
  exact ⟨List.append_cancel_right h, rfl⟩

theorem split_last {s : Str} (h : sep ∈ s) :
    s = (s.rdropWhile (· ≠ sep)).dropLast ++ sep :: s.rtakeWhile (· ≠ sep) := by
  have hne : s.rdropWhile (· ≠ sep) ≠ [] := by
    intro hnil
    simpa using List.rdropWhile_eq_nil_iff.mp hnil sep h
  have hlast : (s.rdropWhile (· ≠ sep)).getLast hne = sep := by
    simpa using List.rdropWhile_last_not (· ≠ sep) s hne
  have hfront := List.dropLast_append_getLast hne
  rw [hlast] at hfront
  rw [← List.singleton_append, ← List.append_assoc, hfront]
  exact List.rdropWhile_append_rtakeWhile.symm

theorem not_mem_rtakeWhile (s : Str) : sep ∉ s.rtakeWhile (· ≠ sep) := fun h => by
  simpa using List.mem_rtakeWhile_imp h

end LastSeparator

def natStr (n : ℕ) : Str := (toString n).toList

def isLineBreak (c : Char) : Bool :=
  c ∈ ['\n', '\r', '\x0b', '\x0c', '\x1c', '\x1d', '\x1e', '\x85', '\u2028', '\u2029']

/-- The lines of a text, each with the break that ends it. -/
def lineSpans : Str → List (Str × Str)
  | [] => []
  | '\r' :: '\n' :: s => ([], ['\r', '\n']) :: lineSpans s
  | c :: s =>
    if isLineBreak c then ([], [c]) :: lineSpans s
    else match lineSpans s with
      | [] => [([c], [])]
      | (line, ending) :: spans => (c :: line, ending) :: spans

def splitlines (s : Str) : List Str := (lineSpans s).map Prod.fst

end Text
