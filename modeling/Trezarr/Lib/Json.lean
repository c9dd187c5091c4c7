import Trezarr.Lib.Dict
import Trezarr.Lib.Fallible
import Trezarr.Lib.Text

/-! The source language's JSON reader: the values, the scanner, and the ways it fails. -/
open Text

/-- An escape can leave half of a surrogate pair in a string, which no codec encodes. -/
inductive CodePoint
  | char (c : Char)
  | half (unit : ℕ)
  deriving DecidableEq, Repr

/-- A number with a fraction or an exponent is kept as it is written. -/
inductive Json
  | null
  | bool (b : Bool)
  | int (n : ℤ)
  | real (literal : Str)
  | str (s : List CodePoint)
  | arr (items : List Json)
  | obj (members : List (List CodePoint × Json))

/-- `decode` is the reader's own error; `exhausted` is of the loops below, and never happens. -/
inductive LoadsError
  | decode
  | tooManyDigits
  | recursion
  | exhausted
  deriving DecidableEq, Repr

namespace Json

abbrev Scanner (α : Type) := Str → Except LoadsError (α × Str)

def points (s : Str) : List CodePoint := s.map .char

/-- The string as text, where it has no halves. -/
def str? : List CodePoint → Option Str
  | [] => some []
  | .char c :: s => (str? s).map (c :: ·)
  | .half _ :: _ => none

theorem str?_eq_some_iff {s : List CodePoint} {text : Str} : str? s = some text ↔ points text = s := by
  induction s generalizing text with
  | nil => simp [str?, points, eq_comm]
  | cons p s ih =>
    cases p with
    | half unit =>
      refine ⟨fun h => (nomatch h), fun h => ?_⟩
      obtain ⟨c, rest, -, hc, -⟩ := List.map_eq_cons_iff.mp h
      cases hc
    | char c =>
      constructor
      · intro h
        obtain ⟨rest, hrest, rfl⟩ := Option.map_eq_some_iff.mp h
        exact congrArg (CodePoint.char c :: ·) (ih.mp hrest)
      · intro h
        obtain ⟨c', rest, rfl, hc, hrest⟩ := List.map_eq_cons_iff.mp h
        cases hc
        exact Option.map_eq_some_iff.mpr ⟨rest, ih.mpr hrest, rfl⟩

def field? (key : Str) (members : List (List CodePoint × Json)) : Option Json :=
  (members.find? (·.1 = points key)).map Prod.snd

def isWs (c : Char) : Bool := c = ' ' ∨ c = '\t' ∨ c = '\n' ∨ c = '\r'

def skipWs (s : Str) : Str := s.dropWhile isWs

section Strings

def hexDigit? (c : Char) : Option ℕ :=
  if '0' ≤ c ∧ c ≤ '9' then some (c.toNat - 48)
  else if 'a' ≤ c ∧ c ≤ 'f' then some (c.toNat - 87)
  else if 'A' ≤ c ∧ c ≤ 'F' then some (c.toNat - 55)
  else none

def hexUnit? (a b c d : Char) : Option ℕ := do
  let high := 16 * (← hexDigit? a) + (← hexDigit? b)
  return 256 * high + 16 * (← hexDigit? c) + (← hexDigit? d)

def unitPoint (unit : ℕ) : CodePoint :=
  if 0xD800 ≤ unit ∧ unit < 0xE000 then .half unit else .char (Char.ofNat unit)

def escape? : Char → Option Char
  | '"' => some '"'
  | '\\' => some '\\'
  | '/' => some '/'
  | 'b' => some '\x08'
  | 'f' => some '\x0C'
  | 'n' => some '\n'
  | 'r' => some '\r'
  | 't' => some '\t'
  | _ => none

def consPoint (p : CodePoint) : List CodePoint × Str → List CodePoint × Str
  | (s, rest) => (p :: s, rest)

/-- What follows the opening quote. -/
def scanString : Scanner (List CodePoint)
  | [] => .error .decode
  | '"' :: rest => .ok ([], rest)
  | '\\' :: 'u' :: a :: b :: c :: d :: rest =>
    match hexUnit? a b c d with
    | some unit => (scanString rest).map (consPoint (unitPoint unit))
    | none => .error .decode
  | '\\' :: c :: rest =>
    match escape? c with
    | some c => (scanString rest).map (consPoint (.char c))
    | none => .error .decode
  | c :: rest =>
    if c.toNat < 0x20 then .error .decode else (scanString rest).map (consPoint (.char c))

/-- A high half and the low half right after it are one character. -/
def joinHalves : List CodePoint → List CodePoint
  | .half high :: .half low :: s =>
    if high < 0xDC00 ∧ 0xDC00 ≤ low then
      .char (Char.ofNat (0x10000 + (high - 0xD800) * 0x400 + (low - 0xDC00))) :: joinHalves s
    else .half high :: joinHalves (.half low :: s)
  | p :: s => p :: joinHalves s
  | [] => []

end Strings

section Numbers

def maxStrDigits : ℕ := 4300

def integerPart : Str → Str × Str
  | '0' :: rest => (['0'], rest)
  | s => (s.takeWhile Char.isDigit, s.dropWhile Char.isDigit)

def fraction : Str → Str × Str
  | '.' :: rest =>
    if rest.takeWhile Char.isDigit = [] then ([], '.' :: rest)
    else ('.' :: rest.takeWhile Char.isDigit, rest.dropWhile Char.isDigit)
  | s => ([], s)

def exponentSign : Str → Str × Str
  | '+' :: rest => (['+'], rest)
  | '-' :: rest => (['-'], rest)
  | s => ([], s)

def exponent : Str → Str × Str
  | [] => ([], [])
  | e :: rest =>
    let (sign, digits) := exponentSign rest
    if (e = 'e' ∨ e = 'E') ∧ digits.takeWhile Char.isDigit ≠ [] then
      (e :: sign ++ digits.takeWhile Char.isDigit, digits.dropWhile Char.isDigit)
    else ([], e :: rest)

def digitsValue (digits : Str) : ℕ := digits.foldl (fun n c => 10 * n + (c.toNat - 48)) 0

def scanUnsigned (negative : Bool) : Scanner Json := fun s =>
  let (digits, rest) := integerPart s
  let (frac, rest) := fraction rest
  let (exp, rest) := exponent rest
  if digits = [] then .error .decode
  else if frac ≠ [] ∨ exp ≠ [] then
    .ok (.real ((if negative then ['-'] else []) ++ digits ++ frac ++ exp), rest)
  else if maxStrDigits < digits.length then .error .tooManyDigits
  else .ok (.int (if negative then -digitsValue digits else digitsValue digits), rest)

def scanNumber : Scanner Json
  | '-' :: rest => scanUnsigned true rest
  | s => scanUnsigned false s

end Numbers

def words : List (Str × Json) :=
  [("null", .null), ("true", .bool true), ("false", .bool false), ("NaN", .real "NaN"),
    ("Infinity", .real "Infinity"), ("-Infinity", .real "-Infinity")]

def scanScalar : Scanner Json
  | '"' :: rest => (scanString rest).map fun (s, rest) => (.str (joinHalves s), rest)
  | s =>
    match words.find? (·.1 <+: s) with
    | some (word, value) => .ok (value, s.drop word.length)
    | none => scanNumber s

section Containers

/-- What follows the opening bracket and its space; each turn reads a value with `item`. -/
def scanItems (item : Scanner Json) : ℕ → Scanner (List Json)
  | 0, _ => .error .exhausted
  | n + 1, s => do
    let (value, rest) ← item s
    match skipWs rest with
    | ']' :: rest => .ok ([value], rest)
    | ',' :: rest =>
      let (more, rest) ← scanItems item n (skipWs rest)
      .ok (value :: more, rest)
    | _ => .error .decode

def scanMember (item : Scanner Json) : Scanner (List CodePoint × Json)
  | '"' :: rest => do
    let (key, rest) ← scanString rest
    match skipWs rest with
    | ':' :: rest =>
      let (value, rest) ← item (skipWs rest)
      .ok ((joinHalves key, value), rest)
    | _ => .error .decode
  | _ => .error .decode

def scanMembers (item : Scanner Json) : ℕ → Scanner (List (List CodePoint × Json))
  | 0, _ => .error .exhausted
  | n + 1, s => do
    let (member, rest) ← scanMember item s
    match skipWs rest with
    | '}' :: rest => .ok ([member], rest)
    | ',' :: rest =>
      let (more, rest) ← scanMembers item n (skipWs rest)
      .ok (member :: more, rest)
    | _ => .error .decode

def scanArray (item : Scanner Json) : Scanner Json := fun s =>
  match skipWs s with
  | ']' :: rest => .ok (.arr [], rest)
  | s => (scanItems item (s.length + 1) s).map fun (items, rest) => (.arr items, rest)

/-- Of the members with one key the last counts, in the place of the first. -/
def scanObject (item : Scanner Json) : Scanner Json := fun s =>
  match skipWs s with
  | '}' :: rest => .ok (.obj [], rest)
  | s => (scanMembers item (s.length + 1) s).map fun (members, rest) =>
      (.obj (Dict.ofList members).entries, rest)

end Containers

/-- Every bracket takes one of the calls that the interpreter has left. -/
def scanOnce : ℕ → Scanner Json
  | 0, '[' :: _ => .error .recursion
  | 0, '{' :: _ => .error .recursion
  | depth + 1, '[' :: rest => scanArray (scanOnce depth) rest
  | depth + 1, '{' :: rest => scanObject (scanOnce depth) rest
  | _, s => scanScalar s

def loads (recursionLimit : ℕ) (s : Str) : Except LoadsError Json :=
  if s.head? = some '\uFEFF' then .error .decode
  else do
    let (value, rest) ← scanOnce recursionLimit (skipWs s)
    if skipWs rest = [] then .ok value else .error .decode

section Totality

variable {α β : Type} {item : Scanner Json} {scan : Scanner α} {n m : ℕ} {s : Str}

/-- A success leaves fewer characters than `n`, and a failure is one of the reader's. -/
def Fits (n : ℕ) : Except LoadsError (α × Str) → Prop
  | .ok (_, rest) => rest.length < n
  | .error e => e ≠ .exhausted

def Sound (scan : Scanner α) : Prop := ∀ s, Fits s.length (scan s)

theorem Fits.mono {x : Except LoadsError (α × Str)} (h : Fits n x) (hle : n ≤ m) : Fits m x := by
  cases x with
  | error e => exact h
  | ok p => exact lt_of_lt_of_le h hle

theorem Fits.map {x : Except LoadsError (α × Str)} {f : α × Str → β × Str} (h : Fits n x)
    (hf : ∀ p, (f p).2 = p.2) : Fits n (x.map f) := by
  cases x with
  | error e => exact h
  | ok p =>
    show (f p).2.length < n
    rw [hf p]
    exact h

theorem Fits.cons {x : Except LoadsError (List CodePoint × Str)} {p : CodePoint} (h : Fits n x) :
    Fits n (x.map (consPoint p)) :=
  h.map fun _ => rfl

theorem Fits.bind {x : Except LoadsError (α × Str)} {f : α × Str → Except LoadsError (β × Str)}
    (h : Fits n x) (hf : ∀ a rest, rest.length < n → Fits m (f (a, rest))) : Fits m (x >>= f) := by
  cases x with
  | error e => exact h
  | ok p => exact hf p.1 p.2 h

theorem fits_decode : Fits n (.error .decode : Except LoadsError (α × Str)) := by
  intro h
  cases h

theorem length_skipWs : (skipWs s).length ≤ s.length :=
  List.length_dropWhile_le _ _

theorem scanString_sound : Sound scanString := by
  intro s
  fun_induction scanString s with
  | case1 => exact fits_decode
  | case2 rest => exact Nat.lt_succ_self _
  | case3 a b c d rest unit hunit ih =>
    exact ih.cons.mono (List.suffix_append ['\\', 'u', a, b, c, d] rest).length_le
  | case4 => exact fits_decode
  | case5 c rest hu c' hc ih =>
    exact ih.cons.mono (List.suffix_append ['\\', c] rest).length_le
  | case6 => exact fits_decode
  | case7 => exact fits_decode
  | case8 c rest hq hu hb hc ih =>
    exact ih.cons.mono (List.suffix_append [c] rest).length_le

theorem length_integerPart (s : Str) :
    (integerPart s).1.length + (integerPart s).2.length = s.length := by
  unfold integerPart
  split
  next => simp only [List.length_cons, List.length_nil]; omega
  next => rw [← List.length_append, List.takeWhile_append_dropWhile]

theorem length_fraction (s : Str) : (fraction s).2.length ≤ s.length := by
  unfold fraction
  split
  next rest =>
    split
    next => exact le_rfl
    next =>
      have hdrop := List.length_dropWhile_le Char.isDigit rest
      simp only [List.length_cons]
      omega
  next => exact le_rfl

theorem length_exponentSign (s : Str) : (exponentSign s).2.length ≤ s.length := by
  unfold exponentSign
  split
  next => exact Nat.le_succ _
  next => exact Nat.le_succ _
  next => exact le_rfl

theorem length_exponent (s : Str) : (exponent s).2.length ≤ s.length := by
  unfold exponent
  split
  next => exact le_rfl
  next e rest =>
    dsimp only
    split
    next =>
      have hsign := length_exponentSign rest
      have hdrop := List.length_dropWhile_le Char.isDigit (exponentSign rest).2
      simp only [List.length_cons]
      omega
    next => exact le_rfl

theorem scanUnsigned_sound (negative : Bool) : Sound (scanUnsigned negative) := by
  intro s
  have hinteger := length_integerPart s
  have hfraction := length_fraction (integerPart s).2
  have hexponent := length_exponent (fraction (integerPart s).2).2
  unfold scanUnsigned
  dsimp only
  split
  next => exact fits_decode
  next hdigits =>
    have hpos := List.length_pos_of_ne_nil hdigits
    have hrest : (exponent (fraction (integerPart s).2).2).2.length < s.length := by omega
    split
    next => exact hrest
    next =>
      split
      next =>
        intro h
        cases h
      next => exact hrest

theorem scanNumber_sound : Sound scanNumber := by
  intro s
  unfold scanNumber
  split
  next rest => exact (scanUnsigned_sound true rest).mono (Nat.le_succ _)
  next => exact scanUnsigned_sound false s

theorem scanScalar_sound : Sound scanScalar := by
  intro s
  unfold scanScalar
  split
  next rest =>
    exact Fits.mono (Fits.map (scanString_sound rest) fun _ => rfl) (Nat.le_succ _)
  next =>
    split
    next word value hfind =>
      have hmem := List.mem_of_find?_eq_some hfind
      have hprefix : word <+: s := by simpa using List.find?_some hfind
      have hpos : 0 < word.length := by
        have hall : ∀ w ∈ words, 0 < w.1.length := by decide
        exact hall _ hmem
      have hle := hprefix.length_le
      show (s.drop word.length).length < s.length
      rw [List.length_drop]
      omega
    next => exact scanNumber_sound s

theorem scanItems_fits (hitem : Sound item) :
    ∀ n s, s.length < n → Fits s.length (scanItems item n s)
  | 0, s, hn => absurd hn (Nat.not_lt_zero _)
  | n + 1, s, hn => by
    refine (hitem s).bind fun value rest hrest => ?_
    have hws := length_skipWs (s := rest)
    dsimp only
    split
    next rest' heq =>
      rw [heq, List.length_cons] at hws
      show rest'.length < s.length
      omega
    next rest' heq =>
      rw [heq, List.length_cons] at hws
      have hws' := length_skipWs (s := rest')
      refine (scanItems_fits hitem n (skipWs rest') (by omega)).bind fun more rest hmore => ?_
      show rest.length < s.length
      omega
    next => exact fits_decode

theorem scanMember_sound (hitem : Sound item) : Sound (scanMember item) := by
  intro s
  unfold scanMember
  split
  next rest =>
    refine (scanString_sound rest).bind fun key rest' hkey => ?_
    have hws := length_skipWs (s := rest')
    dsimp only
    split
    next rest'' heq =>
      rw [heq, List.length_cons] at hws
      have hws' := length_skipWs (s := rest'')
      refine (hitem (skipWs rest'')).bind fun value rest''' hvalue => ?_
      show rest'''.length < ('"' :: rest).length
      rw [List.length_cons]
      omega
    next => exact fits_decode
  next => exact fits_decode

theorem scanMembers_fits (hitem : Sound item) :
    ∀ n s, s.length < n → Fits s.length (scanMembers item n s)
  | 0, s, hn => absurd hn (Nat.not_lt_zero _)
  | n + 1, s, hn => by
    refine (scanMember_sound hitem s).bind fun member rest hrest => ?_
    have hws := length_skipWs (s := rest)
    dsimp only
    split
    next rest' heq =>
      rw [heq, List.length_cons] at hws
      show rest'.length < s.length
      omega
    next rest' heq =>
      rw [heq, List.length_cons] at hws
      have hws' := length_skipWs (s := rest')
      refine (scanMembers_fits hitem n (skipWs rest') (by omega)).bind fun more rest hmore => ?_
      show rest.length < s.length
      omega
    next => exact fits_decode

theorem scanArray_sound (hitem : Sound item) : Sound (scanArray item) := by
  intro s
  have hws := length_skipWs (s := s)
  unfold scanArray
  split
  next rest heq =>
    rw [heq, List.length_cons] at hws
    show rest.length < s.length
    omega
  next => exact Fits.mono (Fits.map (scanItems_fits hitem _ _ (Nat.lt_succ_self _)) fun _ => rfl) hws

theorem scanObject_sound (hitem : Sound item) : Sound (scanObject item) := by
  intro s
  have hws := length_skipWs (s := s)
  unfold scanObject
  split
  next rest heq =>
    rw [heq, List.length_cons] at hws
    show rest.length < s.length
    omega
  next =>
    exact Fits.mono (Fits.map (scanMembers_fits hitem _ _ (Nat.lt_succ_self _)) fun _ => rfl) hws

theorem scanOnce_sound : ∀ depth, Sound (scanOnce depth)
  | depth, s => by
    fun_cases scanOnce depth s with
    | case1 => intro h; cases h
    | case2 => intro h; cases h
    | case3 depth rest => exact (scanArray_sound (scanOnce_sound depth) rest).mono (Nat.le_succ _)
    | case4 depth rest => exact (scanObject_sound (scanOnce_sound depth) rest).mono (Nat.le_succ _)
    | case5 => exact scanScalar_sound s

/-- The loops have as many turns as there are characters, which is enough. -/
theorem loads_ne_exhausted (recursionLimit : ℕ) (s : Str) :
    loads recursionLimit s ≠ .error .exhausted := by
  unfold loads
  split
  next => intro h; cases h
  next =>
    have hscan := scanOnce_sound recursionLimit (skipWs s)
    cases hvalue : scanOnce recursionLimit (skipWs s) with
    | error e =>
      rw [hvalue] at hscan
      exact fun h => hscan (Except.error.inj h)
    | ok p =>
      show (if skipWs p.2 = [] then Except.ok p.1 else Except.error LoadsError.decode) ≠ _
      split
      · intro h
        cases h
      · intro h
        cases h

end Totality

end Json
