import Trezarr.Lib.Json
import Trezarr.Lib.Numbers
import Trezarr.Lib.Utf16

/-! The source language's JSON writer, with an indent and in ASCII, and its reader after it. -/
open Text

namespace Json

section Writing

def hexUnit (unit : ℕ) : Str :=
  ['\\', 'u', Nat.digitChar (unit / 4096), Nat.digitChar (unit / 256 % 16),
    Nat.digitChar (unit / 16 % 16), Nat.digitChar (unit % 16)]

/-- Characters outside of ASCII are escaped by their units of UTF-16. -/
def escapeChar (c : Char) : Str :=
  if c = '"' then ['\\', '"']
  else if c = '\\' then ['\\', '\\']
  else if c = '\n' then ['\\', 'n']
  else if c = '\r' then ['\\', 'r']
  else if c = '\t' then ['\\', 't']
  else if c = '\x08' then ['\\', 'b']
  else if c = '\x0C' then ['\\', 'f']
  else if ' ' ≤ c ∧ c ≤ '~' then [c]
  else (Utf16.charUnits c).flatMap hexUnit

def escapePoint : CodePoint → Str
  | .char c => escapeChar c
  | .half unit => hexUnit unit

def quoted (s : List CodePoint) : Str := '"' :: (s.flatMap escapePoint ++ ['"'])

def newline (indent level : ℕ) : Str := '\n' :: List.replicate (indent * level) ' '

def intText (n : ℤ) : Str := if n < 0 then '-' :: natStr n.natAbs else natStr n.natAbs

mutual

/-- A number that is no integer is written as it was read. -/
def dumpsAt (indent level : ℕ) : Json → Str
  | .null => ['n', 'u', 'l', 'l']
  | .bool true => ['t', 'r', 'u', 'e']
  | .bool false => ['f', 'a', 'l', 's', 'e']
  | .int n => intText n
  | .real literal => literal
  | .str s => quoted s
  | .arr [] => ['[', ']']
  | .arr (item :: items) =>
    '[' :: (newline indent (level + 1) ++ (dumpsAt indent (level + 1) item ++
      (dumpsItems indent (level + 1) items ++ (newline indent level ++ [']']))))
  | .obj [] => ['\x7b', '\x7d']
  | .obj ((key, value) :: members) =>
    '\x7b' :: (newline indent (level + 1) ++ (quoted key ++ (':' :: ' ' ::
      (dumpsAt indent (level + 1) value ++
        (dumpsMembers indent (level + 1) members ++ (newline indent level ++ ['\x7d']))))))

def dumpsItems (indent level : ℕ) : List Json → Str
  | [] => []
  | item :: items =>
    ',' :: (newline indent level ++ (dumpsAt indent level item ++ dumpsItems indent level items))

def dumpsMembers (indent level : ℕ) : List (List CodePoint × Json) → Str
  | [] => []
  | (key, value) :: members =>
    ',' :: (newline indent level ++ (quoted key ++ (':' :: ' ' ::
      (dumpsAt indent level value ++ dumpsMembers indent level members))))

end

def dumps (indent : ℕ) (value : Json) : Str := dumpsAt indent 0 value

/-- A value without numbers that are no integers, nested at most this deep. -/
inductive Printable : ℕ → Json → Prop
  | null {depth : ℕ} : Printable depth .null
  | bool {depth : ℕ} (b : Bool) : Printable depth (.bool b)
  | int {depth : ℕ} {n : ℤ} (hdigits : (natStr n.natAbs).length ≤ maxStrDigits) :
    Printable depth (.int n)
  | str {depth : ℕ} (text : Str) : Printable depth (.str (points text))
  | arr {depth : ℕ} {items : List Json} (hitems : ∀ item ∈ items, Printable depth item) :
    Printable (depth + 1) (.arr items)
  | obj {depth : ℕ} {members : List (List CodePoint × Json)}
    (hkeys : (members.map Prod.fst).Nodup)
    (hnames : ∀ member ∈ members, ∃ text, member.1 = points text)
    (hvalues : ∀ member ∈ members, Printable depth member.2) : Printable (depth + 1) (.obj members)

end Writing

section Strings

/-- What the reader makes of a character that was written. -/
def writtenPoints (c : Char) : List CodePoint := (Utf16.charUnits c).map unitPoint

def prepend (front : List CodePoint) : List CodePoint × Str → List CodePoint × Str
  | (s, rest) => (front ++ s, rest)

theorem hexDigit?_digitChar {n : ℕ} (h : n < 16) : hexDigit? (Nat.digitChar n) = some n := by
  have hall : ∀ n < 16, hexDigit? (Nat.digitChar n) = some n := by decide
  exact hall n h

theorem scanString_hexUnit {unit : ℕ} (h : unit < 0x10000) (s : Str) :
    scanString (hexUnit unit ++ s) = (scanString s).map (consPoint (unitPoint unit)) := by
  have hvalue : hexUnit? (Nat.digitChar (unit / 4096)) (Nat.digitChar (unit / 256 % 16))
      (Nat.digitChar (unit / 16 % 16)) (Nat.digitChar (unit % 16)) = some unit := by
    unfold hexUnit?
    rw [hexDigit?_digitChar (by omega), hexDigit?_digitChar (by omega),
      hexDigit?_digitChar (by omega), hexDigit?_digitChar (by omega)]
    show some _ = some unit
    congr 1
    omega
  show scanString ('\\' :: 'u' :: _ :: _ :: _ :: _ :: s) = _
  rw [scanString, hvalue]

theorem map_prepend_nil (x : Except LoadsError (List CodePoint × Str)) :
    x.map (prepend []) = x := by
  cases x <;> rfl

theorem map_prepend_cons (x : Except LoadsError (List CodePoint × Str)) (p : CodePoint)
    (front : List CodePoint) :
    (x.map (prepend front)).map (consPoint p) = x.map (prepend (p :: front)) := by
  cases x <;> rfl

theorem map_prepend_append (x : Except LoadsError (List CodePoint × Str))
    (front back : List CodePoint) :
    (x.map (prepend back)).map (prepend front) = x.map (prepend (front ++ back)) := by
  cases x with
  | error e => rfl
  | ok p =>
    show Except.ok (front ++ (back ++ p.1), p.2) = Except.ok (front ++ back ++ p.1, p.2)
    rw [List.append_assoc]

theorem scanString_units {units : List ℕ} (h : ∀ unit ∈ units, unit < 0x10000) (s : Str) :
    scanString (units.flatMap hexUnit ++ s) = (scanString s).map (prepend (units.map unitPoint)) := by
  induction units with
  | nil => exact (map_prepend_nil _).symm
  | cons unit units ih =>
    obtain ⟨hunit, hunits⟩ := List.forall_mem_cons.mp h
    rw [List.flatMap_cons, List.append_assoc, scanString_hexUnit hunit, ih hunits, map_prepend_cons]
    rfl

theorem charUnits_lt (c : Char) : ∀ unit ∈ Utf16.charUnits c, unit < 0x10000 := by
  have hvalid := Utf16.toNat_cases c
  intro unit hunit
  unfold Utf16.charUnits at hunit
  generalize c.toNat = n at hvalid hunit
  split at hunit
  next hbasic =>
    rw [List.mem_singleton.mp hunit]
    exact hbasic
  next hbasic =>
    rcases List.mem_pair.mp hunit with hhigh | hlow
    · omega
    · omega

theorem charUnits_basic {c : Char} (h : c.toNat < 0x10000) : Utf16.charUnits c = [c.toNat] :=
  if_pos h

theorem writtenPoints_basic {c : Char} (h : c.toNat < 0x10000) : writtenPoints c = [.char c] := by
  have hvalid := Utf16.toNat_cases c
  rw [writtenPoints, charUnits_basic h, List.map_singleton, unitPoint, if_neg (by omega),
    Char.ofNat_toNat]

/-- One escaped character is read as its points. -/
theorem scanString_escapeChar (c : Char) (s : Str) :
    scanString (escapeChar c ++ s) = (scanString s).map (prepend (writtenPoints c)) := by
  by_cases hquote : c = '"'
  · subst hquote
    rfl
  by_cases hslash : c = '\\'
  · subst hslash
    rfl
  by_cases hnewline : c = '\n'
  · subst hnewline
    rfl
  by_cases hreturn : c = '\r'
  · subst hreturn
    rfl
  by_cases htab : c = '\t'
  · subst htab
    rfl
  by_cases hback : c = '\x08'
  · subst hback
    rfl
  by_cases hfeed : c = '\x0C'
  · subst hfeed
    rfl
  unfold escapeChar
  rw [if_neg hquote, if_neg hslash, if_neg hnewline, if_neg hreturn, if_neg htab, if_neg hback,
    if_neg hfeed]
  split
  next hprintable =>
    have hlow : 32 ≤ c.toNat := hprintable.1
    have hhigh : c.toNat ≤ 126 := hprintable.2
    rw [writtenPoints_basic (by omega), List.singleton_append, scanString.eq_def]
    split
    next heq => cases heq
    next heq => exact absurd (List.cons.inj heq).1 hquote
    next heq => exact absurd (List.cons.inj heq).1 hslash
    next heq => exact absurd (List.cons.inj heq).1 hslash
    next heq =>
      obtain ⟨rfl, rfl⟩ := List.cons.inj heq
      rw [if_neg (by omega)]
      rfl
  next => exact scanString_units (charUnits_lt c) s

theorem scanString_quoted (text s : Str) :
    scanString ((points text).flatMap escapePoint ++ '"' :: s) =
      .ok (text.flatMap writtenPoints, s) := by
  induction text with
  | nil => rfl
  | cons c text ih =>
    have hpoints : points (c :: text) = .char c :: points text := rfl
    rw [hpoints, List.flatMap_cons, List.append_assoc, escapePoint, scanString_escapeChar, ih,
      List.flatMap_cons]
    rfl

theorem joinHalves_char (c : Char) (s : List CodePoint) :
    joinHalves (.char c :: s) = .char c :: joinHalves s := by
  rw [joinHalves]
  intro high low rest h
  cases h

/-- The halves of a character are joined again. -/
theorem joinHalves_written (c : Char) (s : List CodePoint) :
    joinHalves (writtenPoints c ++ s) = .char c :: joinHalves s := by
  have hvalid := Utf16.toNat_cases c
  by_cases hbasic : c.toNat < 0x10000
  · rw [writtenPoints_basic hbasic, List.singleton_append, joinHalves_char]
  · have hpoints : writtenPoints c = [.half (0xD800 + (c.toNat - 0x10000) / 0x400),
        .half (0xDC00 + (c.toNat - 0x10000) % 0x400)] := by
      rw [writtenPoints, Utf16.charUnits, if_neg hbasic]
      simp only [List.map_cons, List.map_nil, unitPoint]
      rw [if_pos (by omega), if_pos (by omega)]
    have hvalue : 0x10000 + (0xD800 + (c.toNat - 0x10000) / 0x400 - 0xD800) * 0x400 +
        (0xDC00 + (c.toNat - 0x10000) % 0x400 - 0xDC00) = c.toNat := by
      omega
    rw [hpoints, List.cons_append, List.singleton_append, joinHalves, if_pos (by omega), hvalue,
      Char.ofNat_toNat]

theorem joinHalves_writtenPoints (text : Str) :
    joinHalves (text.flatMap writtenPoints) = points text := by
  induction text with
  | nil => rfl
  | cons c text ih =>
    rw [List.flatMap_cons, joinHalves_written, ih]
    rfl

end Strings

section Scalars

variable {s rest : Str} {n : ℕ}

/-- After a value come a comma, a new line or nothing. -/
def Stops (s : Str) : Prop := ∀ c, s.head? = some c → c = ',' ∨ c = '\n'

theorem natStr_head (hn : n ≠ 0) : ∃ c s, natStr n = c :: s ∧ c ≠ '0' := by
  induction n using Nat.strong_induction_on with
  | _ n ih =>
    have hdigits : natStr n = Nat.toDigits 10 n := by simp [natStr, Nat.repr]
    rw [hdigits]
    by_cases hsmall : n < 10
    · rw [Nat.toDigits_of_lt_base hsmall]
      refine ⟨_, [], rfl, ?_⟩
      intro hzero
      have hvalue : hexDigit? (Nat.digitChar n) = some n := hexDigit?_digitChar (by omega)
      rw [hzero] at hvalue
      exact hn (Option.some.inj hvalue).symm
    · obtain ⟨c, s, hhead, hc⟩ := ih (n / 10) (by omega) (by omega)
      have hrest : natStr (n / 10) = Nat.toDigits 10 (n / 10) := by simp [natStr, Nat.repr]
      rw [Nat.toDigits_of_base_le (by omega) (by omega), ← hrest, hhead]
      exact ⟨c, s ++ [Nat.digitChar (n % 10)], rfl, hc⟩

theorem takeWhile_digits (h : Stops rest) :
    (natStr n ++ rest).takeWhile Char.isDigit = natStr n ∧
      (natStr n ++ rest).dropWhile Char.isDigit = rest := by
  have hdigits : ∀ c ∈ natStr n, c.isDigit = true := fun c hc => isDigit_of_mem_natStr hc
  rw [List.takeWhile_append_of_pos hdigits, List.dropWhile_append_of_pos hdigits]
  cases rest with
  | nil => exact ⟨List.append_nil _, rfl⟩
  | cons c rest =>
    have hc : c.isDigit = false := by
      rcases h c rfl with rfl | rfl <;> rfl
    rw [List.takeWhile_cons_of_neg (by simp [hc]), List.dropWhile_cons_of_neg (by simp [hc])]
    exact ⟨List.append_nil _, rfl⟩

theorem integerPart_natStr (h : Stops rest) : integerPart (natStr n ++ rest) = (natStr n, rest) := by
  by_cases hn : n = 0
  · subst hn
    rfl
  · obtain ⟨c, s, hhead, hc⟩ := natStr_head hn
    have hparts := takeWhile_digits (n := n) h
    rw [integerPart.eq_def]
    split
    next heq =>
      rw [hhead] at heq
      exact absurd (List.cons.inj heq).1 hc
    next => rw [hparts.1, hparts.2]

theorem fraction_stops (h : Stops rest) : fraction rest = ([], rest) := by
  rw [fraction.eq_def]
  split
  next => rcases h '.' rfl with heq | heq <;> cases heq
  next => rfl

theorem exponent_stops (h : Stops rest) : exponent rest = ([], rest) := by
  cases rest with
  | nil => rfl
  | cons c rest =>
    have hc : ¬ (c = 'e' ∨ c = 'E') := by
      rcases h c rfl with rfl | rfl <;> decide
    simp only [exponent]
    rw [if_neg fun hexp => hc hexp.1]

theorem digitsValue_natStr (n : ℕ) : digitsValue (natStr n) = n := by
  have hdigits : natStr n = Nat.toDigits 10 n := by simp [natStr, Nat.repr]
  have hvalue : digitsValue (natStr n) = Nat.ofDigitChars 10 (natStr n) 0 := by
    rw [Nat.ofDigitChars_eq_foldl]
    rfl
  rw [hvalue, hdigits, Nat.ofDigitChars_ten_toDigits]

theorem scanUnsigned_natStr (negative : Bool) (hdigits : (natStr n).length ≤ maxStrDigits)
    (h : Stops rest) : scanUnsigned negative (natStr n ++ rest) =
      .ok (.int (if negative then -(n : ℤ) else n), rest) := by
  simp only [scanUnsigned, integerPart_natStr h, fraction_stops h, exponent_stops h]
  rw [if_neg (natStr_ne_nil n), if_neg (by simp), if_neg (by omega), digitsValue_natStr]

theorem words_chars : words = [(['n', 'u', 'l', 'l'], .null), (['t', 'r', 'u', 'e'], .bool true),
    (['f', 'a', 'l', 's', 'e'], .bool false), (['N', 'a', 'N'], .real "NaN"),
    (['I', 'n', 'f', 'i', 'n', 'i', 't', 'y'], .real "Infinity"),
    (['-', 'I', 'n', 'f', 'i', 'n', 'i', 't', 'y'], .real "-Infinity")] := rfl

/-- No word starts like a number. -/
theorem words_find_number {c : Char} (hc : c.isDigit = true) (s : Str) :
    words.find? (·.1 <+: c :: s) = none ∧ words.find? (·.1 <+: '-' :: c :: s) = none := by
  have hne : ∀ d : Char, d.isDigit = false → d ≠ c := by
    rintro d hd rfl
    rw [hd] at hc
    cases hc
  have hminus := hne '-' rfl
  have hn := hne 'n' rfl
  have ht := hne 't' rfl
  have hf := hne 'f' rfl
  have hN := hne 'N' rfl
  have hI := hne 'I' rfl
  rw [words_chars]
  constructor
  · simp [List.cons_prefix_cons, hn, ht, hf, hN, hI, hminus]
  · simp [List.cons_prefix_cons, hI]

theorem scanScalar_number (hquote : s.head? ≠ some '"') (hword : words.find? (·.1 <+: s) = none) :
    scanScalar s = scanNumber s := by
  rw [scanScalar.eq_def]
  split
  next => exact absurd rfl hquote
  next => rw [hword]

theorem scanScalar_word (word : Str) {value : Json} (hquote : s.head? ≠ some '"')
    (hword : words.find? (·.1 <+: s) = some (word, value)) :
    scanScalar s = .ok (value, s.drop word.length) := by
  rw [scanScalar.eq_def]
  split
  next => exact absurd rfl hquote
  next => rw [hword]

theorem scanScalar_null (rest : Str) :
    scanScalar (['n', 'u', 'l', 'l'] ++ rest) = .ok (.null, rest) := by
  have hquote : (['n', 'u', 'l', 'l'] ++ rest).head? ≠ some '"' := by simp
  refine scanScalar_word ['n', 'u', 'l', 'l'] hquote ?_
  simp [words_chars, List.cons_prefix_cons]

theorem scanScalar_true (rest : Str) :
    scanScalar (['t', 'r', 'u', 'e'] ++ rest) = .ok (.bool true, rest) := by
  have hquote : (['t', 'r', 'u', 'e'] ++ rest).head? ≠ some '"' := by simp
  refine scanScalar_word ['t', 'r', 'u', 'e'] hquote ?_
  simp [words_chars, List.cons_prefix_cons]

theorem scanScalar_false (rest : Str) :
    scanScalar (['f', 'a', 'l', 's', 'e'] ++ rest) = .ok (.bool false, rest) := by
  have hquote : (['f', 'a', 'l', 's', 'e'] ++ rest).head? ≠ some '"' := by simp
  refine scanScalar_word ['f', 'a', 'l', 's', 'e'] hquote ?_
  simp [words_chars, List.cons_prefix_cons]

theorem scanScalar_quoted (text rest : Str) :
    scanScalar (quoted (points text) ++ rest) = .ok (.str (points text), rest) := by
  have hform : quoted (points text) ++ rest =
      '"' :: ((points text).flatMap escapePoint ++ '"' :: rest) := by
    simp [quoted]
  rw [hform, scanScalar, scanString_quoted]
  show Except.ok (Json.str (joinHalves (text.flatMap writtenPoints)), rest) = _
  rw [joinHalves_writtenPoints]

theorem natStr_cons (n : ℕ) : ∃ c s, natStr n = c :: s ∧ c.isDigit = true := by
  obtain ⟨c, s, hhead⟩ := List.exists_cons_of_ne_nil (natStr_ne_nil n)
  refine ⟨c, s, hhead, isDigit_of_mem_natStr (n := n) ?_⟩
  rw [hhead]
  exact List.mem_cons_self

theorem scanScalar_intText {n : ℤ} (hdigits : (natStr n.natAbs).length ≤ maxStrDigits)
    (h : Stops rest) : scanScalar (intText n ++ rest) = .ok (.int n, rest) := by
  obtain ⟨c, s, hhead, hc⟩ := natStr_cons n.natAbs
  have hwords := words_find_number hc (s ++ rest)
  have hread := fun negative => scanUnsigned_natStr negative hdigits h
  have hother : c ≠ '"' ∧ c ≠ '-' := by
    constructor
    · rintro rfl
      cases hc
    · rintro rfl
      cases hc
  rw [hhead] at hread
  by_cases hneg : n < 0
  · have htext : intText n ++ rest = '-' :: (c :: s ++ rest) := by
      rw [intText, if_pos hneg, hhead]
      rfl
    have hvalue : -(n.natAbs : ℤ) = n := by omega
    rw [htext, List.cons_append, scanScalar_number (by simp) hwords.2]
    show scanUnsigned true (c :: s ++ rest) = _
    rw [hread true, if_pos rfl, hvalue]
  · have htext : intText n ++ rest = c :: s ++ rest := by
      rw [intText, if_neg hneg, hhead]
    have hvalue : (n.natAbs : ℤ) = n := by omega
    have hnumber : scanNumber (c :: s ++ rest) = scanUnsigned false (c :: s ++ rest) := by
      rw [scanNumber.eq_def]
      split
      next heq => exact absurd (List.cons.inj heq).1 hother.2
      next => rfl
    rw [htext, List.cons_append, scanScalar_number (by simpa using hother.1) hwords.1]
    show scanNumber (c :: s ++ rest) = _
    rw [hnumber, hread false, if_neg Bool.false_ne_true, hvalue]

end Scalars

section Containers

variable {indent depth level : ℕ} {rest : Str} {item : Scanner Json} {value : Json}

/-- What is written for a value is read, wherever it stands. -/
structure ReadBack (indent : ℕ) (item : Scanner Json) (value : Json) : Prop where
  reads : ∀ level rest, Stops rest →
    item (dumpsAt indent level value ++ rest) = .ok (value, rest)
  head : ∀ level, ∃ c s, dumpsAt indent level value = c :: s ∧ isWs c = false ∧ c ≠ ']'

theorem skipWs_newline (s : Str) : skipWs (newline indent level ++ s) = skipWs s := by
  have hspaces : ∀ c ∈ newline indent level, isWs c = true := by
    intro c hc
    rcases List.mem_cons.mp hc with rfl | hc
    · rfl
    · rw [List.eq_of_mem_replicate hc]
      rfl
  exact List.dropWhile_append_of_pos hspaces

theorem skipWs_cons {c : Char} (hc : isWs c = false) (s : Str) : skipWs (c :: s) = c :: s :=
  List.dropWhile_cons_of_neg (by simp [hc])

theorem skipWs_punctuation (s : Str) : skipWs (',' :: s) = ',' :: s ∧ skipWs (':' :: s) = ':' :: s :=
  ⟨skipWs_cons rfl s, skipWs_cons rfl s⟩

theorem skipWs_close (s : Str) : skipWs (newline indent level ++ ']' :: s) = ']' :: s ∧
    skipWs (newline indent level ++ '\x7d' :: s) = '\x7d' :: s := by
  rw [skipWs_newline, skipWs_newline]
  exact ⟨skipWs_cons rfl s, skipWs_cons rfl s⟩

theorem ReadBack.skipWs (h : ReadBack indent item value) (level : ℕ) (s : Str) :
    skipWs (dumpsAt indent level value ++ s) = dumpsAt indent level value ++ s := by
  obtain ⟨c, t, hhead, hc, -⟩ := h.head level
  rw [hhead]
  exact skipWs_cons hc (t ++ s)

theorem stops_comma (s : Str) : Stops (',' :: s) := by
  intro c hc
  cases hc
  exact .inl rfl

theorem stops_newline (indent level : ℕ) (s : Str) : Stops (newline indent level ++ s) := by
  intro c hc
  cases hc
  exact .inr rfl

theorem length_dumpsItems (indent level : ℕ) (items : List Json) :
    items.length ≤ (dumpsItems indent level items).length := by
  induction items with
  | nil => exact Nat.zero_le _
  | cons item items ih =>
    rw [dumpsItems]
    simp only [List.length_cons, List.length_append]
    omega

theorem length_dumpsMembers (indent level : ℕ) (members : List (List CodePoint × Json)) :
    members.length ≤ (dumpsMembers indent level members).length := by
  induction members with
  | nil => exact Nat.zero_le _
  | cons member members ih =>
    rw [dumpsMembers]
    simp only [List.length_cons, List.length_append]
    omega

/-- The items of an array, from one of them on. -/
theorem scanItems_dumps {outer : ℕ} (items : List Json) : ∀ {value : Json} {n : ℕ},
    (∀ v ∈ value :: items, ReadBack indent item v) → items.length < n →
    scanItems item n (dumpsAt indent level value ++ (dumpsItems indent level items ++
      (newline indent outer ++ ']' :: rest))) = .ok (value :: items, rest) := by
  induction items with
  | nil =>
    intro value n h hn
    obtain ⟨n, rfl⟩ := Nat.exists_eq_succ_of_ne_zero (Nat.ne_of_gt hn)
    have hvalue := h value List.mem_cons_self
    rw [dumpsItems, List.nil_append, scanItems, hvalue.reads level _ (stops_newline _ _ _)]
    simp only [bind, Except.bind, skipWs_close]
  | cons next items ih =>
    intro value n h hn
    obtain ⟨n, rfl⟩ := Nat.exists_eq_succ_of_ne_zero (Nat.ne_of_gt (Nat.zero_lt_of_lt hn))
    obtain ⟨hvalue, hrest⟩ := List.forall_mem_cons.mp h
    have hmore := ih hrest (Nat.lt_of_succ_lt_succ hn)
    rw [dumpsItems, scanItems]
    simp only [List.cons_append, List.append_assoc]
    rw [hvalue.reads level _ (stops_comma _)]
    simp only [bind, Except.bind, skipWs_punctuation, skipWs_newline,
      (hrest next List.mem_cons_self).skipWs, hmore]

/-- One member: the key, the colon and the value. -/
theorem scanMember_dumps (key : Str) (h : ReadBack indent item value) (hrest : Stops rest) :
    scanMember item (quoted (points key) ++ (':' :: ' ' :: (dumpsAt indent level value ++ rest))) =
      .ok ((points key, value), rest) := by
  have hform : ∀ s, quoted (points key) ++ s =
      '"' :: ((points key).flatMap escapePoint ++ '"' :: s) := by
    intro s
    simp [quoted]
  have hspace : skipWs (' ' :: (dumpsAt indent level value ++ rest)) =
      dumpsAt indent level value ++ rest := h.skipWs level rest
  rw [hform, scanMember, scanString_quoted]
  simp only [bind, Except.bind, skipWs_punctuation, hspace, h.reads level rest hrest,
    joinHalves_writtenPoints]

theorem skipWs_quoted (s t : Str) : skipWs (quoted (points s) ++ t) = quoted (points s) ++ t :=
  skipWs_cons rfl _

theorem scanMembers_dumps {outer : ℕ} (members : List (List CodePoint × Json)) :
    ∀ {key : Str} {value : Json} {n : ℕ}, ReadBack indent item value →
    (∀ member ∈ members, ∃ text, member.1 = points text) →
    (∀ member ∈ members, ReadBack indent item member.2) → members.length < n →
    scanMembers item n (quoted (points key) ++ (':' :: ' ' :: (dumpsAt indent level value ++
      (dumpsMembers indent level members ++ (newline indent outer ++ '\x7d' :: rest))))) =
      .ok ((points key, value) :: members, rest) := by
  induction members with
  | nil =>
    intro key value n hvalue _ _ hn
    obtain ⟨n, rfl⟩ := Nat.exists_eq_succ_of_ne_zero (Nat.ne_of_gt hn)
    rw [dumpsMembers, List.nil_append, scanMembers,
      scanMember_dumps key hvalue (stops_newline _ _ _)]
    simp only [bind, Except.bind, skipWs_close]
  | cons next members ih =>
    intro key value n hvalue hnames hvalues hn
    obtain ⟨n, rfl⟩ := Nat.exists_eq_succ_of_ne_zero (Nat.ne_of_gt (Nat.zero_lt_of_lt hn))
    obtain ⟨hname', hnames'⟩ := List.forall_mem_cons.mp hnames
    obtain ⟨hvalue', hvalues'⟩ := List.forall_mem_cons.mp hvalues
    obtain ⟨_, value'⟩ := next
    obtain ⟨key', rfl⟩ := hname'
    have hmore := @ih key' value' n hvalue' hnames' hvalues' (Nat.lt_of_succ_lt_succ hn)
    rw [dumpsMembers, scanMembers]
    simp only [List.cons_append, List.append_assoc]
    rw [scanMember_dumps key hvalue (stops_comma _)]
    simp only [bind, Except.bind, skipWs_punctuation, skipWs_newline, skipWs_quoted, hmore]

theorem scanArray_dumps {items : List Json} (h : ∀ v ∈ value :: items, ReadBack indent item v) :
    scanArray item (newline indent (level + 1) ++ (dumpsAt indent (level + 1) value ++
      (dumpsItems indent (level + 1) items ++ (newline indent level ++ ']' :: rest)))) =
      .ok (.arr (value :: items), rest) := by
  have hvalue := h value List.mem_cons_self
  obtain ⟨c, s, hhead, -, hc⟩ := hvalue.head (level + 1)
  have hread := @scanItems_dumps indent (level + 1) rest item level items value
  rw [scanArray, skipWs_newline, hvalue.skipWs]
  split
  next heq =>
    rw [hhead] at heq
    exact absurd (List.cons.inj heq).1 hc
  next =>
    have hlength := length_dumpsItems indent (level + 1) items
    rw [hread h (by simp only [List.length_append]; omega)]
    rfl

theorem scanObject_dumps {key : Str} {members : List (List CodePoint × Json)}
    (hkeys : (((points key, value) :: members).map Prod.fst).Nodup)
    (hvalue : ReadBack indent item value)
    (hnames : ∀ member ∈ members, ∃ text, member.1 = points text)
    (hvalues : ∀ member ∈ members, ReadBack indent item member.2) :
    scanObject item (newline indent (level + 1) ++ (quoted (points key) ++ (':' :: ' ' ::
      (dumpsAt indent (level + 1) value ++ (dumpsMembers indent (level + 1) members ++
        (newline indent level ++ '\x7d' :: rest)))))) =
      .ok (.obj ((points key, value) :: members), rest) := by
  have hread := @scanMembers_dumps indent (level + 1) rest item level members key value
  rw [scanObject, skipWs_newline, skipWs_quoted]
  split
  next heq => cases heq
  next =>
    have hlength := length_dumpsMembers indent (level + 1) members
    rw [hread hvalue hnames hvalues (by simp only [List.length_append, List.length_cons]; omega)]
    show Except.ok (Json.obj (Dict.ofList _).entries, rest) = _
    rw [Dict.entries_ofList hkeys]

theorem scanOnce_scalar {c : Char} {s : Str} (harr : c ≠ '[') (hobj : c ≠ '\x7b') :
    scanOnce depth (c :: s) = scanScalar (c :: s) := by
  rw [scanOnce.eq_def]
  split
  next heq => exact absurd (List.cons.inj heq).1 harr
  next heq => exact absurd (List.cons.inj heq).1 hobj
  next heq => exact absurd (List.cons.inj heq).1 harr
  next heq => exact absurd (List.cons.inj heq).1 hobj
  next => rfl

/-- A byte order mark is the start of no value. -/
theorem scanOnce_mark (s : Str) : scanOnce depth ('\uFEFF' :: s) = .error .decode := by
  rw [scanOnce_scalar (by decide) (by decide), scanScalar_number (by simp)
    (by simp [words_chars, List.cons_prefix_cons])]
  rfl

/-- Every value that can be printed is read back. -/
theorem readBack_of_printable (indent : ℕ) (h : Printable depth value) :
    ReadBack indent (scanOnce depth) value := by
  induction h with
  | null =>
    refine ⟨fun level rest _ => ?_, fun level => ⟨'n', _, by rw [dumpsAt], rfl, by decide⟩⟩
    rw [dumpsAt, List.cons_append, scanOnce_scalar (by decide) (by decide)]
    exact scanScalar_null rest
  | bool b =>
    cases b
    · refine ⟨fun level rest _ => ?_, fun level => ⟨'f', _, by rw [dumpsAt], rfl, by decide⟩⟩
      rw [dumpsAt, List.cons_append, scanOnce_scalar (by decide) (by decide)]
      exact scanScalar_false rest
    · refine ⟨fun level rest _ => ?_, fun level => ⟨'t', _, by rw [dumpsAt], rfl, by decide⟩⟩
      rw [dumpsAt, List.cons_append, scanOnce_scalar (by decide) (by decide)]
      exact scanScalar_true rest
  | @int _ n hdigits =>
    have hfirst : ∃ c s, intText n = c :: s ∧ (c = '-' ∨ c.isDigit = true) := by
      obtain ⟨c, s, hhead, hc⟩ := natStr_cons n.natAbs
      rw [intText]
      split
      next => exact ⟨'-', _, rfl, .inl rfl⟩
      next => exact ⟨c, s, hhead, .inr hc⟩
    obtain ⟨c, s, hhead, hc⟩ := hfirst
    have hother : ∀ d : Char, d.isDigit = false → d ≠ '-' → c ≠ d := by
      rintro d hdigit hminus rfl
      rcases hc with hc | hc
      · exact hminus hc
      · rw [hdigit] at hc
        cases hc
    refine ⟨fun level rest hrest => ?_, fun level => ⟨c, s, by rw [dumpsAt, hhead], ?_, ?_⟩⟩
    · rw [dumpsAt, hhead, List.cons_append,
        scanOnce_scalar (hother _ rfl (by decide)) (hother _ rfl (by decide)), ← List.cons_append,
        ← hhead]
      exact scanScalar_intText hdigits hrest
    · unfold isWs
      rw [decide_eq_false_iff_not]
      rintro (hws | hws | hws | hws)
      all_goals exact hother _ rfl (by decide) hws
    · exact hother _ rfl (by decide)
  | str text =>
    refine ⟨fun level rest _ => ?_, fun level => ⟨'"', _, by rw [dumpsAt, quoted], rfl, by decide⟩⟩
    rw [dumpsAt, quoted, List.cons_append, scanOnce_scalar (by decide) (by decide)]
    exact scanScalar_quoted text rest
  | @arr depth items hitems ih =>
    cases items with
    | nil =>
      refine ⟨fun level rest _ => ?_, fun level => ⟨'[', _, by rw [dumpsAt], rfl, by decide⟩⟩
      rw [dumpsAt]
      rfl
    | cons value items =>
      refine ⟨fun level rest _ => ?_, fun level => ⟨'[', _, by rw [dumpsAt], rfl, by decide⟩⟩
      rw [dumpsAt]
      simp only [List.cons_append, List.append_assoc, List.nil_append]
      rw [scanOnce]
      exact scanArray_dumps ih
  | @obj depth members hkeys hnames hvalues ih =>
    cases members with
    | nil =>
      refine ⟨fun level rest _ => ?_, fun level => ⟨'\x7b', _, by rw [dumpsAt], rfl, by decide⟩⟩
      rw [dumpsAt]
      rfl
    | cons member members =>
      obtain ⟨hname, hnames'⟩ := List.forall_mem_cons.mp hnames
      obtain ⟨hvalue, hvalues'⟩ := List.forall_mem_cons.mp ih
      obtain ⟨_, value⟩ := member
      obtain ⟨key, rfl⟩ := hname
      refine ⟨fun level rest _ => ?_, fun level => ⟨'\x7b', _, by rw [dumpsAt], rfl, by decide⟩⟩
      rw [dumpsAt]
      simp only [List.cons_append, List.append_assoc, List.nil_append]
      rw [scanOnce]
      exact scanObject_dumps hkeys hvalue hnames' hvalues'

end Containers

/-- What is dumped is loaded. -/
theorem loads_dumps (indent : ℕ) {depth : ℕ} {value : Json} (h : Printable depth value) :
    loads depth (dumps indent value) = .ok value := by
  have hread := readBack_of_printable indent h
  have hscan : scanOnce depth (dumps indent value) = .ok (value, []) := by
    rw [← List.append_nil (dumps indent value)]
    exact hread.reads 0 [] nofun
  have hspace : skipWs (dumps indent value) = dumps indent value := by
    rw [← List.append_nil (dumps indent value)]
    exact hread.skipWs 0 []
  have hmark : (dumps indent value).head? ≠ some '\uFEFF' := by
    intro hmark
    obtain ⟨s, hs⟩ := List.head?_eq_some_iff.mp hmark
    rw [hs, scanOnce_mark] at hscan
    cases hscan
  rw [loads, if_neg hmark, hspace, hscan]
  rfl

section Plain

variable {s t : Str} {indent depth level : ℕ} {value : Json}

/-- Nothing but line feeds and the printable characters of ASCII. -/
def Plain (s : Str) : Prop := ∀ c ∈ s, c = '\n' ∨ 32 ≤ c.toNat ∧ c.toNat ≤ 126

instance (s : Str) : Decidable (Plain s) :=
  inferInstanceAs (Decidable (∀ c ∈ s, c = '\n' ∨ 32 ≤ c.toNat ∧ c.toNat ≤ 126))

theorem plain_nil : Plain [] := List.forall_mem_nil _

theorem plain_of_all (h : (s.all fun c => 32 ≤ c.toNat && c.toNat ≤ 126) = true) : Plain s := by
  intro c hc
  have hrange := List.all_eq_true.mp h c hc
  rw [Bool.and_eq_true] at hrange
  exact .inr ⟨of_decide_eq_true hrange.1, of_decide_eq_true hrange.2⟩

theorem Plain.append (hs : Plain s) (ht : Plain t) : Plain (s ++ t) :=
  fun c hc => (List.mem_append.mp hc).elim (hs c) (ht c)

theorem Plain.cons {c : Char} (hc : 32 ≤ c.toNat ∧ c.toNat ≤ 126) (hs : Plain s) :
    Plain (c :: s) :=
  List.forall_mem_cons.mpr ⟨.inr hc, hs⟩

theorem plain_digitChar (n : ℕ) : 32 ≤ (Nat.digitChar n).toNat ∧ (Nat.digitChar n).toNat ≤ 126 := by
  by_cases hn : n < 16
  · have hall : ∀ n < 16, 32 ≤ (Nat.digitChar n).toNat ∧ (Nat.digitChar n).toNat ≤ 126 := by decide
    exact hall n hn
  · have hother : Nat.digitChar n = '*' := by
      unfold Nat.digitChar
      repeat rw [if_neg (by omega)]
    rw [hother]
    decide

theorem plain_hexUnit (unit : ℕ) : Plain (hexUnit unit) :=
  .cons (by decide) (.cons (by decide) (.cons (plain_digitChar _) (.cons (plain_digitChar _)
    (.cons (plain_digitChar _) (.cons (plain_digitChar _) plain_nil)))))

theorem plain_units (units : List ℕ) : Plain (units.flatMap hexUnit) := by
  intro c hc
  obtain ⟨unit, _, hmem⟩ := List.mem_flatMap.mp hc
  exact plain_hexUnit unit c hmem

theorem plain_escapeChar (c : Char) : Plain (escapeChar c) := by
  unfold escapeChar
  repeat' split
  all_goals first
    | exact .cons (by decide) (.cons (by decide) plain_nil)
    | exact plain_units _
    | next hprintable => exact .cons ⟨hprintable.1, hprintable.2⟩ plain_nil

theorem plain_quoted (s : List CodePoint) : Plain (quoted s) := by
  refine .cons (by decide) (.append ?_ (.cons (by decide) plain_nil))
  intro c hc
  obtain ⟨p, _, hmem⟩ := List.mem_flatMap.mp hc
  cases p with
  | char c' => exact plain_escapeChar c' c hmem
  | half unit => exact plain_hexUnit unit c hmem

theorem plain_newline (indent level : ℕ) : Plain (newline indent level) := by
  refine List.forall_mem_cons.mpr ⟨.inl rfl, fun c hc => .inr ?_⟩
  rw [List.eq_of_mem_replicate hc]
  decide

theorem plain_intText (n : ℤ) : Plain (intText n) := by
  have hdigits : Plain (natStr n.natAbs) := by
    intro c hc
    have hdigit := isDigit_of_mem_natStr hc
    have hbounds : 48 ≤ c.toNat ∧ c.toNat ≤ 57 := by
      simpa [Char.isDigit, UInt32.le_iff_toNat_le] using hdigit
    omega
  unfold intText
  split
  · exact .cons (by decide) hdigits
  · exact hdigits

theorem plain_dumpsItems {items : List Json}
    (h : ∀ item ∈ items, ∀ level, Plain (dumpsAt indent level item)) :
    Plain (dumpsItems indent level items) := by
  induction items with
  | nil =>
    rw [dumpsItems]
    exact plain_nil
  | cons item items ih =>
    obtain ⟨hitem, hitems⟩ := List.forall_mem_cons.mp h
    rw [dumpsItems]
    exact .cons (by decide) (.append (plain_newline _ _) (.append (hitem level) (ih hitems)))

theorem plain_dumpsMembers {members : List (List CodePoint × Json)}
    (h : ∀ member ∈ members, ∀ level, Plain (dumpsAt indent level member.2)) :
    Plain (dumpsMembers indent level members) := by
  induction members with
  | nil =>
    rw [dumpsMembers]
    exact plain_nil
  | cons member members ih =>
    obtain ⟨hmember, hmembers⟩ := List.forall_mem_cons.mp h
    rw [dumpsMembers]
    exact .cons (by decide) (.append (plain_newline _ _) (.append (plain_quoted _)
      (.cons (by decide) (.cons (by decide) (.append (hmember level) (ih hmembers))))))

/-- Whatever is in the value's strings. -/
theorem plain_dumpsAt (h : Printable depth value) : ∀ level, Plain (dumpsAt indent level value) := by
  induction h with
  | null =>
    intro level
    rw [dumpsAt]
    exact plain_of_all rfl
  | bool b =>
    intro level
    cases b
    · rw [dumpsAt]
      exact plain_of_all rfl
    · rw [dumpsAt]
      exact plain_of_all rfl
  | int _ =>
    intro level
    rw [dumpsAt]
    exact plain_intText _
  | str text =>
    intro level
    rw [dumpsAt]
    exact plain_quoted _
  | @arr depth items _ ih =>
    intro level
    cases items with
    | nil =>
      rw [dumpsAt]
      exact .cons (by decide) (.cons (by decide) plain_nil)
    | cons item items =>
      obtain ⟨hitem, hitems⟩ := List.forall_mem_cons.mp ih
      rw [dumpsAt]
      exact .cons (by decide) (.append (plain_newline _ _) (.append (hitem _)
        (.append (plain_dumpsItems hitems)
          (.append (plain_newline _ _) (.cons (by decide) plain_nil)))))
  | @obj depth members _ _ _ ih =>
    intro level
    cases members with
    | nil =>
      rw [dumpsAt]
      exact .cons (by decide) (.cons (by decide) plain_nil)
    | cons member members =>
      obtain ⟨hmember, hmembers⟩ := List.forall_mem_cons.mp ih
      rw [dumpsAt]
      exact .cons (by decide) (.append (plain_newline _ _) (.append (plain_quoted _)
        (.cons (by decide) (.cons (by decide) (.append (hmember _)
          (.append (plain_dumpsMembers hmembers)
            (.append (plain_newline _ _) (.cons (by decide) plain_nil))))))))

end Plain

end Json
