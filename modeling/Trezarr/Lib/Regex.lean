import Trezarr.Lib.Text

/-! Backtracking regular expressions: a pattern lists its matches, the preferred one first. -/
namespace Regex
open Text

inductive Pattern
  | eps
  | set (p : Char → Bool)
  | seq (a b : Pattern)
  | alt (a b : Pattern)
  | star (a : Pattern)
  | group (n : ℕ) (a : Pattern)
  | start
  | lineStart
  | finish
  | boundary
  | notAhead (a : Pattern)
  | notBehind (p : Char → Bool)

/-- A place in a text: what is before it, last character first, and what is after it. -/
structure Cursor where
  before : Str
  after : Str
  groups : List (ℕ × Str) := []
  deriving DecidableEq, Repr

def Cursor.upTo (c d : Cursor) : Str := c.after.take (c.after.length - d.after.length)

/-- Longer iterations come first; an iteration that consumes nothing ends the loop. -/
def iterate (f : Cursor → List Cursor) : ℕ → Cursor → List Cursor
  | 0, c => [c]
  | n + 1, c =>
    ((f c).filter fun d => d.after.length < c.after.length).flatMap (iterate f n) ++ [c]

namespace Pattern

def results : Pattern → Cursor → List Cursor
  | eps, c => [c]
  | set p, c =>
    match c.after with
    | [] => []
    | x :: rest => if p x then [⟨x :: c.before, rest, c.groups⟩] else []
  | seq a b, c => (a.results c).flatMap b.results
  | alt a b, c => a.results c ++ b.results c
  | star a, c => iterate a.results c.after.length c
  | group n a, c => (a.results c).map fun d => { d with groups := (n, c.upTo d) :: d.groups }
  | start, c => if c.before = [] then [c] else []
  | lineStart, c => if c.before = [] ∨ c.before.head? = some '\n' then [c] else []
  | finish, c => if c.after = [] ∨ c.after = ['\n'] then [c] else []
  | boundary, c => if c.before.head?.any isWord = c.after.head?.any isWord then [] else [c]
  | notAhead a, c => if a.results c = [] then [c] else []
  | notBehind p, c => if c.before.head?.any p then [] else [c]

def opt (a : Pattern) : Pattern := alt a eps

def plus (a : Pattern) : Pattern := seq a (star a)

def char (c : Char) : Pattern := set (· = c)

def seqs (as : List Pattern) : Pattern := as.foldr seq eps

def alts : List Pattern → Pattern
  | [] => set fun _ => false
  | [a] => a
  | a :: as => alt a (alts as)

def lit (s : Str) : Pattern := seqs (s.map char)

/-- Case is ignored one character to one; dotless i and long s count as i and s. -/
def sameLetter (c x : Char) : Bool :=
  let d := simpleLower x
  d = simpleLower c || (c = 'i' && x = 'ı') || (c = 's' && x = 'ſ')

def charI (c : Char) : Pattern := set (sameLetter c)

def litI (s : Str) : Pattern := seqs (s.map charI)

def oneOf (s : Str) : Pattern := set (· ∈ s)

def noneOf (s : Str) : Pattern := set (· ∉ s)

def range (lo hi : Char) : Pattern := set fun c => lo ≤ c && c ≤ hi

def space : Pattern := set isSpace

def digit : Pattern := set isDigit

def dot : Pattern := set (· ≠ '\n')

end Pattern

/-- One match: the text passed over before it, the matched text and the rest. -/
structure Found where
  skipped : Str
  before : Str
  text : Str
  rest : Str
  groups : List (ℕ × Str)
  deriving DecidableEq, Repr

def Found.group (f : Found) (n : ℕ) : Str := ((f.groups.find? (·.1 = n)).map Prod.snd).getD []

variable (p : Pattern)

def matchAt (before after : Str) : Option Found :=
  (p.results ⟨before, after, []⟩).head?.map fun d =>
    ⟨[], before, Cursor.upTo ⟨before, after, []⟩ d, d.after, d.groups⟩

def matchStart (s : Str) : Option Found := matchAt p [] s

def fullMatch (s : Str) : Option Found :=
  ((p.results ⟨[], s, []⟩).find? (·.after = [])).map fun d => ⟨[], [], s, [], d.groups⟩

def searchFrom (before : Str) : Str → Option Found
  | [] => matchAt p before []
  | c :: s =>
    match matchAt p before (c :: s) with
    | some f => some f
    | none => (searchFrom (c :: before) s).map fun f => { f with skipped := c :: f.skipped }

def search (s : Str) : Option Found := searchFrom p [] s

def found (s : Str) : Bool := (search p s).isSome

/-- Successive matches from a place; after an empty one the search moves on by one character. -/
def findFrom : ℕ → Str → Str → List Found
  | 0, _, _ => []
  | n + 1, before, after =>
    match searchFrom p before after with
    | none => []
    | some f =>
      f :: match f.text, f.rest with
        | [], [] => []
        | [], c :: rest => findFrom n (c :: f.before) rest
        | text, rest => findFrom n (text.reverse ++ f.before) rest

def findIter (s : Str) : List Found := findFrom p (s.length + 1) [] s

def subFrom (repl : Found → Str) : ℕ → Str → Str → Str
  | 0, _, after => after
  | n + 1, before, after =>
    match searchFrom p before after with
    | none => after
    | some f =>
      f.skipped ++ repl f ++ match f.text, f.rest with
        | [], [] => []
        | [], c :: rest => c :: subFrom repl n (c :: f.before) rest
        | text, rest => subFrom repl n (text.reverse ++ f.before) rest

def sub (repl : Found → Str) (s : Str) : Str := subFrom p repl (s.length + 1) [] s

/-- The pieces between matches, with each match between its neighbours. -/
def splitFrom : ℕ → Str → Str → List Str
  | 0, _, after => [after]
  | n + 1, before, after =>
    match searchFrom p before after with
    | none => [after]
    | some f => f.skipped :: f.text :: splitFrom n (f.text.reverse ++ f.before) f.rest

def split (s : Str) : List Str := splitFrom p (s.length + 1) [] s

end Regex
