import Trezarr.Lib.Numbers
import Trezarr.Lib.RegexPlaces
import Trezarr.Translate.Timecode

/-! The timecodes of the three formats and their values in milliseconds. -/
namespace Trezarr
open Text Regex Regex.Pattern

/-- The digits of a timecode; hours may be absent. -/
structure Fields where
  hours : Str
  minutes : Str
  seconds : Str
  fraction : Str

def Fields.milliseconds (t : Fields) : ℕ :=
  valueOf t.hours * 3600000 + valueOf t.minutes * 60000 + valueOf t.seconds * 1000 +
    valueOf t.fraction * 1000 / 10 ^ t.fraction.length

inductive TcFormat
  | srt
  | ass
  | vttHours
  | vttHourless
  deriving DecidableEq, Repr

namespace TcFormat

def pattern : TcFormat → Pattern
  | srt => tcParseRe
  | ass => assTcRe
  | vttHours => vttHoursTcRe
  | vttHourless => vttHourlessTcRe

/-- What the branch of a format makes of its match. -/
def read (m : Found) : TcFormat → Except PyError ℕ
  | srt => do
    let ms ← pyInt ((ljustZero 3 (m.group 4)).take 3)
    return (← pyInt (m.group 1)) * 3600000 + (← pyInt (m.group 2)) * 60000 +
      (← pyInt (m.group 3)) * 1000 + ms
  | ass => do
    return (← pyInt (m.group 1)) * 3600000 + (← pyInt (m.group 2)) * 60000 +
      (← pyInt (m.group 3)) * 1000 + (← pyInt (m.group 4)) * 10
  | vttHours => do
    return (← pyInt (m.group 1)) * 3600000 + (← pyInt (m.group 2)) * 60000 +
      (← pyInt (m.group 3)) * 1000 + (← pyInt (m.group 4))
  | vttHourless => do
    return (← pyInt (m.group 1)) * 60000 + (← pyInt (m.group 2)) * 1000 + (← pyInt (m.group 3))

/-- The formats in the order they are tried. -/
def inOrder : List TcFormat := [srt, ass, vttHours, vttHourless]

/-- The first format that matches is read. -/
def tryEach (formats : List TcFormat) (tc : Str) : Except PyError ℕ :=
  match formats with
  | [] => .ok 0
  | format :: formats =>
    match matchStart format.pattern tc with
    | some m => format.read m
    | none => tryEach formats tc

def HoursFit : TcFormat → ℕ → Prop
  | srt, n => n = 2
  | ass, n => 1 ≤ n
  | vttHours, n => 1 ≤ n
  | vttHourless, _ => False

def FractionFits : TcFormat → ℕ → Prop
  | srt, n => 1 ≤ n
  | ass, n => n = 2
  | vttHours, n => n = 3
  | vttHourless, n => n = 3

def IsPoint : TcFormat → Char → Prop
  | srt, x => x ∈ (",." : Str)
  | _, x => x = '.'

end TcFormat

theorem tcToMs_eq (tc : Str) : tcToMs tc = TcFormat.tryEach TcFormat.inOrder (strip tc) := by
  rfl

/-- The digits a match has noted. -/
def TcFormat.fields (m : Found) : TcFormat → Fields
  | vttHourless => ⟨[], m.group 1, m.group 2, m.group 3⟩
  | _ => ⟨m.group 1, m.group 2, m.group 3, m.group 4⟩

/-- What may follow a timecode that is matched: nothing but the end, where the pattern has one. -/
def TcFormat.Leaves : TcFormat → Str → Prop
  | srt, rest => ∀ c, rest.head? = some c → isDigit c = false
  | _, rest => rest = [] ∨ rest = ['\n']

/-- Digits, and as many as fit. -/
structure Number (width : ℕ → Prop) (w : Str) : Prop where
  digits : ∀ c ∈ w, isDigit c = true
  fits : width w.length

/-- The well-formed timecodes of a format. -/
inductive IsTimecode : TcFormat → Str → Fields → Prop
  | clock {format : TcFormat} {h m s f : Str} {x : Char} (hours : Number format.HoursFit h)
    (minutes : Number (· = 2) m) (seconds : Number (· = 2) s) (point : format.IsPoint x)
    (fraction : Number format.FractionFits f) :
    IsTimecode format (h ++ ':' :: (m ++ ':' :: (s ++ x :: f))) ⟨h, m, s, f⟩
  | hourless {m s f : Str} (minutes : Number (1 ≤ ·) m) (seconds : Number (· = 2) s)
    (fraction : Number (· = 3) f) :
    IsTimecode .vttHourless (m ++ ':' :: (s ++ '.' :: f)) ⟨[], m, s, f⟩

section Reading

variable {format format' : TcFormat} {g g' r r' tc : Str} {t t' : Fields} {m : Found}

/-- Digits before something else are read in one way. -/
theorem Number.unique {width width' : ℕ → Prop} {w w' : Str} {x x' : Char} (h : Number width w)
    (h' : Number width' w') (hx : isDigit x = false) (hx' : isDigit x' = false)
    (heq : w ++ x :: r = w' ++ x' :: r') : w = w' ∧ x = x' ∧ r = r' := by
  have hhead : ∀ {y : Char} {rest : Str}, isDigit y = false →
      ∀ c, (y :: rest).head? = some c → isDigit c = false := by
    intro y rest hy c hc
    cases hc
    exact hy
  obtain ⟨rfl, hrest⟩ := run_unique h.digits h'.digits (hhead hx) (hhead hx') heq
  exact ⟨rfl, List.cons.inj hrest⟩

theorem not_isDigit_point {x : Char} (h : format.IsPoint x) : isDigit x = false := by
  cases format with
  | srt =>
    have hpoints : (",." : Str).all (fun x => !isDigit x) = true := by decide +kernel
    simpa using List.all_eq_true.mp hpoints x h
  | ass | vttHours | vttHourless =>
    rw [show x = '.' from h]
    decide +kernel

theorem not_isDigit_colon : isDigit ':' = false := by decide +kernel

theorem not_isDigit_dot : isDigit '.' = false := by decide +kernel

/-- No two formats read the same text in two ways. -/
theorem IsTimecode.unique (h : IsTimecode format g t) (h' : IsTimecode format' g' t')
    (hr : ∀ c, r.head? = some c → isDigit c = false)
    (hr' : ∀ c, r'.head? = some c → isDigit c = false) (heq : g ++ r = g' ++ r') : t = t' := by
  cases h with
  | clock hours minutes seconds point fraction =>
    cases h' with
    | clock hours' minutes' seconds' point' fraction' =>
      simp only [List.append_assoc, List.cons_append] at heq
      obtain ⟨rfl, _, heq⟩ := hours.unique hours' not_isDigit_colon not_isDigit_colon heq
      obtain ⟨rfl, _, heq⟩ := minutes.unique minutes' not_isDigit_colon not_isDigit_colon heq
      obtain ⟨rfl, _, heq⟩ :=
        seconds.unique seconds' (not_isDigit_point point) (not_isDigit_point point') heq
      obtain ⟨rfl, _⟩ := run_unique fraction.digits fraction'.digits hr hr' heq
      rfl
    | hourless minutes' seconds' fraction' =>
      simp only [List.append_assoc, List.cons_append] at heq
      obtain ⟨rfl, _, heq⟩ := hours.unique minutes' not_isDigit_colon not_isDigit_colon heq
      obtain ⟨_, hpoint, _⟩ := minutes.unique seconds' not_isDigit_colon not_isDigit_dot heq
      cases hpoint
  | hourless minutes seconds fraction =>
    cases h' with
    | clock hours' minutes' seconds' point' fraction' =>
      simp only [List.append_assoc, List.cons_append] at heq
      obtain ⟨rfl, _, heq⟩ := minutes.unique hours' not_isDigit_colon not_isDigit_colon heq
      obtain ⟨_, hpoint, _⟩ := seconds.unique minutes' not_isDigit_dot not_isDigit_colon heq
      cases hpoint
    | hourless minutes' seconds' fraction' =>
      simp only [List.append_assoc, List.cons_append] at heq
      obtain ⟨rfl, _, heq⟩ := minutes.unique minutes' not_isDigit_colon not_isDigit_colon heq
      obtain ⟨rfl, _, heq⟩ := seconds.unique seconds' not_isDigit_dot not_isDigit_dot heq
      obtain ⟨rfl, _⟩ := run_unique fraction.digits fraction'.digits hr hr' heq
      rfl

theorem hoursFit_pos {n : ℕ} (h : format.HoursFit n) : 0 < n := by
  cases format with
  | srt => exact h.symm ▸ Nat.two_pos
  | ass | vttHours => exact h
  | vttHourless => exact h.elim

theorem fractionFits_pos {n : ℕ} (h : format.FractionFits n) : 0 < n := by
  cases format with
  | srt => exact h
  | ass => exact h.symm ▸ Nat.two_pos
  | vttHours | vttHourless => exact h.symm ▸ Nat.succ_pos 2

/-- Nothing is stripped of what has digits at both ends. -/
theorem strip_between {width width' : ℕ → Prop} {w w' : Str} (hw : Number width w)
    (hpos : 0 < w.length) (hw' : Number width' w') (hpos' : 0 < w'.length) (between : Str) :
    strip (w ++ (between ++ w')) = w ++ (between ++ w') := by
  refine strip_eq_self (fun c hc => ?_) fun c hc => ?_
  · obtain ⟨d, w, rfl⟩ := List.exists_cons_of_length_pos hpos
    cases hc
    exact not_isSpace_of_isDigit (hw.digits _ List.mem_cons_self)
  · obtain ⟨front, d, rfl⟩ := (List.eq_nil_or_concat' w').resolve_left
      (List.ne_nil_of_length_pos hpos')
    rw [← List.append_assoc, ← List.append_assoc, List.getLast?_concat] at hc
    cases hc
    exact not_isSpace_of_isDigit (hw'.digits _ (List.mem_append_right _ List.mem_cons_self))

/-- No white space is around a timecode. -/
theorem IsTimecode.strip_eq (h : IsTimecode format tc t) : strip tc = tc := by
  cases h with
  | @clock _ h m s f x hours minutes seconds point fraction =>
    have hstrip := strip_between hours (hoursFit_pos hours.fits) fraction
      (fractionFits_pos fraction.fits) (':' :: (m ++ ':' :: (s ++ [x])))
    simpa using hstrip
  | @hourless m s f minutes seconds fraction =>
    have hstrip := strip_between minutes minutes.fits fraction (by rw [fraction.fits]; decide)
      (':' :: (s ++ ['.']))
    simpa using hstrip

end Reading

section Matching

variable {a b : Pattern} {width : ℕ → Prop} {sep : Char → Bool} {c d : Cursor} {n : ℕ}

theorem runs_twoDigits : Runs isDigit (· = 2) twoDigits :=
  Runs.set.cons.congr fun n => by
    constructor
    · rintro ⟨_, rfl, rfl⟩
      rfl
    · rintro rfl
      exact ⟨1, rfl, rfl⟩

theorem runs_threeDigits : Runs isDigit (· = 3) threeDigits :=
  Runs.eps.cons.cons.cons.congr fun n => by
    constructor
    · rintro ⟨_, rfl, _, rfl, _, rfl, rfl⟩
      rfl
    · rintro rfl
      exact ⟨2, rfl, 1, rfl, 0, rfl, rfl⟩

theorem runs_plus_digit : Runs isDigit (1 ≤ ·) (plus digit) :=
  Runs.star.cons.congr fun n => by
    constructor
    · rintro ⟨m, rfl, _⟩
      omega
    · intro hn
      exact ⟨n - 1, by omega, trivial⟩

/-- One number and the separator after it. -/
theorem first_number_iff (ha : Runs isDigit width a)
    (hsep : ∀ x, sep x = true → isDigit x = false) :
    (seq (group n a) (seq (Pattern.set sep) b)).first c = some d ↔
      ∃ w x r, c.after = w ++ x :: r ∧ Number width w ∧ sep x = true ∧
        b.first (Cursor.field c n w x r) = some d := by
  rw [ha.first_field_iff hsep]
  constructor
  · rintro ⟨w, x, r, hafter, hw, hwidth, hx, hb⟩
    exact ⟨w, x, r, hafter, ⟨hw, hwidth⟩, hx, hb⟩
  · rintro ⟨w, x, r, hafter, ⟨hw, hwidth⟩, hx, hb⟩
    exact ⟨w, x, r, hafter, hw, hwidth, hx, hb⟩

theorem colon_apart : ∀ x, decide (x = ':') = true → isDigit x = false := by
  intro x hx
  rw [of_decide_eq_true hx]
  exact not_isDigit_colon

/-- The numbers of a clock, to what follows the point. -/
theorem first_clock_iff (ha : Runs isDigit width a)
    (hsep : ∀ x, sep x = true → isDigit x = false) :
    (seq (group 1 a) (seq (char ':') (seq (group 2 twoDigits) (seq (char ':')
      (seq (group 3 twoDigits) (seq (Pattern.set sep) b)))))).first c = some d ↔
      ∃ h m s x r, c.after = h ++ ':' :: (m ++ ':' :: (s ++ x :: r)) ∧ Number width h ∧
        Number (· = 2) m ∧ Number (· = 2) s ∧ sep x = true ∧
        b.first (Cursor.field (Cursor.field (Cursor.field c 1 h ':' (m ++ ':' :: (s ++ x :: r)))
          2 m ':' (s ++ x :: r)) 3 s x r) = some d := by
  constructor
  · intro hfirst
    obtain ⟨h, x₁, r₁, hafter, hh, hx₁, hfirst⟩ := (first_number_iff ha colon_apart).mp hfirst
    obtain ⟨m, x₂, r₂, hr₁, hm, hx₂, hfirst⟩ :=
      (first_number_iff runs_twoDigits colon_apart).mp hfirst
    obtain ⟨s, x, r, hr₂, hs, hx, hfirst⟩ := (first_number_iff runs_twoDigits hsep).mp hfirst
    cases of_decide_eq_true hx₁
    cases of_decide_eq_true hx₂
    cases hr₁
    cases hr₂
    exact ⟨h, m, s, x, r, hafter, hh, hm, hs, hx, hfirst⟩
  · rintro ⟨h, m, s, x, r, hafter, hh, hm, hs, hx, hb⟩
    refine (first_number_iff ha colon_apart).mpr ⟨h, ':', _, hafter, hh, decide_eq_true rfl, ?_⟩
    refine (first_number_iff runs_twoDigits colon_apart).mpr
      ⟨m, ':', _, rfl, hm, decide_eq_true rfl, ?_⟩
    exact (first_number_iff runs_twoDigits hsep).mpr ⟨s, x, r, rfl, hs, hx, hb⟩

/-- A fraction of any length ends where its digits do. -/
theorem first_fraction_iff : (seq (group n (plus digit)) eps).first c = some d ↔
    ∃ w r, c.after = w ++ r ∧ Number (1 ≤ ·) w ∧ (∀ x, r.head? = some x → isDigit x = false) ∧
      d = Cursor.note c n w r := by
  rw [first_seq_eps, runs_plus_digit.first_group_iff]
  constructor
  · rintro ⟨w, r, hw, rfl⟩
    exact ⟨w, r, hw.eq, ⟨hw.all, hw.fits⟩, hw.stops fun _ => Nat.le_succ_of_le, rfl⟩
  · rintro ⟨w, r, hafter, hw, hstop, rfl⟩
    refine ⟨w, r, ?_, rfl⟩
    rw [hafter]
    exact .of_stop hw.digits hw.fits hstop

/-- A number that the text ends with. -/
theorem first_ending_iff (ha : Runs isDigit width a) :
    (seq (group n a) (seq finish eps)).first c = some d ↔
      ∃ w r, c.after = w ++ r ∧ Number width w ∧ (r = [] ∨ r = ['\n']) ∧
        d = Cursor.note c n w r := by
  rw [ha.first_last_iff (by decide +kernel)]
  constructor
  · rintro ⟨w, r, hafter, hw, hwidth, hend, rfl⟩
    exact ⟨w, r, hafter, ⟨hw, hwidth⟩, hend, rfl⟩
  · rintro ⟨w, r, hafter, ⟨hw, hwidth⟩, hend, rfl⟩
    exact ⟨w, r, hafter, hw, hwidth, hend, rfl⟩

theorem matchStart_iff {p : Pattern} {s : Str} {m : Found} : matchStart p s = some m ↔
    ∃ d, p.first ⟨[], s, []⟩ = some d ∧
      m = ⟨[], [], Cursor.upTo ⟨[], s, []⟩ d, d.after, d.groups⟩ := by
  unfold matchStart matchAt first
  rw [Option.map_eq_some_iff]
  exact exists_congr fun d => and_congr_right fun _ => eq_comm

variable {format : TcFormat} {tc : Str} {t : Fields}

theorem hourless_text (m s f rest : Str) :
    (m ++ ':' :: (s ++ '.' :: f)) ++ rest = m ++ ':' :: (s ++ '.' :: (f ++ rest)) := by
  simp

theorem clock_text (h m s : Str) (x : Char) (f rest : Str) :
    (h ++ ':' :: (m ++ ':' :: (s ++ x :: f))) ++ rest =
      h ++ ':' :: (m ++ ':' :: (s ++ x :: (f ++ rest))) := by
  simp

/-- A format with hours matches the text of a clock. -/
theorem clock_match_iff (hformat : format ≠ .vttHourless)
    (hpattern : format.pattern = seq (group 1 a) (seq (char ':') (seq (group 2 twoDigits)
      (seq (char ':') (seq (group 3 twoDigits) (seq (Pattern.set sep) b))))))
    (ha : Runs isDigit format.HoursFit a) (hpoint : ∀ x, sep x = true ↔ format.IsPoint x)
    (hb : ∀ {c d}, b.first c = some d ↔ ∃ w r, c.after = w ++ r ∧ Number format.FractionFits w ∧
      format.Leaves r ∧ d = Cursor.note c 4 w r) :
    (∃ m, matchStart format.pattern tc = some m ∧ format.fields m = t) ↔
      ∃ g rest, tc = g ++ rest ∧ IsTimecode format g t ∧ format.Leaves rest := by
  have hfields : ∀ m, format.fields m = ⟨m.group 1, m.group 2, m.group 3, m.group 4⟩ := by
    intro m
    cases format with
    | srt | ass | vttHours => rfl
    | vttHourless => exact absurd rfl hformat
  have hsep : ∀ x, sep x = true → isDigit x = false :=
    fun x hx => not_isDigit_point ((hpoint x).mp hx)
  rw [hpattern]
  constructor
  · rintro ⟨m, hmatch, rfl⟩
    obtain ⟨d, hfirst, rfl⟩ := matchStart_iff.mp hmatch
    obtain ⟨h, m, s, x, r, hafter, hh, hm, hs, hx, hfirst⟩ := (first_clock_iff ha hsep).mp hfirst
    obtain ⟨f, rest, hr, hf, hrest, rfl⟩ := hb.mp hfirst
    cases hr
    have htc : tc = h ++ ':' :: (m ++ ':' :: (s ++ x :: (f ++ rest))) := hafter
    rw [hfields]
    refine ⟨_, rest, htc.trans ?_, .clock hh hm hs ((hpoint x).mp hx) hf, hrest⟩
    exact (clock_text h m s x f rest).symm
  · rintro ⟨g, rest, rfl, htimecode, hrest⟩
    cases htimecode with
    | @clock _ h m s f x hours minutes seconds point fraction =>
      rw [clock_text]
      refine ⟨_, matchStart_iff.mpr ⟨_, (first_clock_iff ha hsep).mpr ⟨h, m, s, x, f ++ rest, rfl,
        hours, minutes, seconds, (hpoint x).mpr point,
        hb.mpr ⟨f, rest, rfl, fraction, hrest, rfl⟩⟩, rfl⟩, ?_⟩
      rw [hfields]
      rfl
    | hourless => exact absurd rfl hformat

/-- The format without hours has minutes in front. -/
theorem hourless_match_iff :
    (∃ m, matchStart vttHourlessTcRe tc = some m ∧ TcFormat.vttHourless.fields m = t) ↔
      ∃ g rest, tc = g ++ rest ∧ IsTimecode .vttHourless g t ∧
        TcFormat.vttHourless.Leaves rest := by
  have hdot : ∀ x, decide (x = '.') = true → isDigit x = false := by
    intro x hx
    rw [of_decide_eq_true hx]
    exact not_isDigit_dot
  constructor
  · rintro ⟨m, hmatch, rfl⟩
    obtain ⟨d, hfirst, rfl⟩ := matchStart_iff.mp hmatch
    obtain ⟨m, x₁, r₁, hafter, hm, hx₁, hfirst⟩ :=
      (first_number_iff runs_plus_digit colon_apart).mp hfirst
    obtain ⟨s, x₂, r₂, hr₁, hs, hx₂, hfirst⟩ := (first_number_iff runs_twoDigits hdot).mp hfirst
    obtain ⟨f, rest, hr₂, hf, hrest, rfl⟩ := (first_ending_iff runs_threeDigits).mp hfirst
    cases of_decide_eq_true hx₁
    cases of_decide_eq_true hx₂
    cases hr₁
    cases hr₂
    have htc : tc = m ++ ':' :: (s ++ '.' :: (f ++ rest)) := hafter
    refine ⟨_, rest, htc.trans ?_, .hourless hm hs hf, hrest⟩
    exact (hourless_text m s f rest).symm
  · rintro ⟨g, rest, rfl, htimecode, hrest⟩
    cases htimecode with
    | clock hours => exact hours.fits.elim
    | @hourless m s f minutes seconds fraction =>
      rw [hourless_text]
      refine ⟨_, matchStart_iff.mpr ⟨_, (first_number_iff runs_plus_digit colon_apart).mpr
        ⟨m, ':', _, rfl, minutes, decide_eq_true rfl, (first_number_iff runs_twoDigits hdot).mpr
          ⟨s, '.', _, rfl, seconds, decide_eq_true rfl, (first_ending_iff runs_threeDigits).mpr
            ⟨f, rest, rfl, fraction, hrest, rfl⟩⟩⟩, rfl⟩, rfl⟩

/-- A pattern matches the timecodes of its format. -/
theorem format_match_iff :
    (∃ m, matchStart format.pattern tc = some m ∧ format.fields m = t) ↔
      ∃ g rest, tc = g ++ rest ∧ IsTimecode format g t ∧ format.Leaves rest := by
  cases format with
  | srt =>
    refine clock_match_iff (by decide) rfl runs_twoDigits (fun x => decide_eq_true_iff) ?_
    exact first_fraction_iff
  | ass =>
    refine clock_match_iff (by decide) rfl runs_plus_digit (fun x => decide_eq_true_iff) ?_
    exact first_ending_iff runs_twoDigits
  | vttHours =>
    refine clock_match_iff (by decide) rfl runs_plus_digit (fun x => decide_eq_true_iff) ?_
    exact first_ending_iff runs_threeDigits
  | vttHourless => exact hourless_match_iff

end Matching

/-- An integer of at most so many digits is read. -/
def Fields.value (t : Fields) : Except PyError ℕ :=
  if t.hours.length ≤ maxStrDigits ∧ t.minutes.length ≤ maxStrDigits then .ok t.milliseconds
  else .error .valueError

section Values

variable {format format' : TcFormat} {formats : List TcFormat} {g tc : Str} {t : Fields}
  {m m' : Found}

theorem IsTimecode.lengths (h : IsTimecode format g t) :
    t.seconds.length = 2 ∧ format.FractionFits t.fraction.length ∧
      (format.HoursFit t.hours.length ∧ t.minutes.length = 2 ∨
        format = .vttHourless ∧ t.hours = []) := by
  cases h with
  | clock hours minutes seconds point fraction =>
    exact ⟨seconds.fits, fraction.fits, .inl ⟨hours.fits, minutes.fits⟩⟩
  | hourless minutes seconds fraction => exact ⟨seconds.fits, fraction.fits, .inr ⟨rfl, rfl⟩⟩

theorem pyInt_of_short {digits : Str} (h : digits.length ≤ maxStrDigits) :
    pyInt digits = .ok (valueOf digits) := if_neg (Nat.not_lt.mpr h)

theorem pyInt_of_long {digits : Str} (h : ¬ digits.length ≤ maxStrDigits) :
    pyInt digits = .error .valueError := if_pos (Nat.lt_of_not_le h)

theorem pyInt_of_length {digits : Str} {n : ℕ} (h : digits.length = n) (hn : n ≤ maxStrDigits) :
    pyInt digits = .ok (valueOf digits) := pyInt_of_short (h ▸ hn)

theorem pyInt_thousandths (fraction : Str) : pyInt ((ljustZero 3 fraction).take 3) =
    .ok (valueOf fraction * 1000 / 10 ^ fraction.length) := by
  rw [pyInt_of_short]
  · unfold ljustZero
    rw [valueOf_fraction]
    rfl
  · exact (List.length_take_le 3 _).trans (by decide)

theorem hundredths {fraction : Str} (h : fraction.length = 2) :
    valueOf fraction * 10 = valueOf fraction * 1000 / 10 ^ fraction.length := by
  rw [h]
  omega

theorem thousandths {fraction : Str} (h : fraction.length = 3) :
    valueOf fraction = valueOf fraction * 1000 / 10 ^ fraction.length := by
  rw [h]
  omega

theorem value_of_short (hhours : t.hours.length ≤ maxStrDigits)
    (hminutes : t.minutes.length ≤ maxStrDigits) : t.value = .ok t.milliseconds :=
  if_pos ⟨hhours, hminutes⟩

theorem value_of_long (h : ¬ (t.hours.length ≤ maxStrDigits ∧ t.minutes.length ≤ maxStrDigits)) :
    t.value = .error .valueError := if_neg h

/-- The branches with hours of any length differ in the unit of the fraction alone. -/
theorem read_hours {h m s f : Str} {k : ℕ → ℕ} (hminutes : m.length = 2)
    (hseconds : s.length = 2) (hfraction : f.length ≤ maxStrDigits)
    (hunit : k (valueOf f) = valueOf f * 1000 / 10 ^ f.length) :
    (do
      return (← pyInt h) * 3600000 + (← pyInt m) * 60000 + (← pyInt s) * 1000 +
        k (← pyInt f)) = Fields.value ⟨h, m, s, f⟩ := by
  have htwo : 2 ≤ maxStrDigits := by decide
  by_cases hshort : h.length ≤ maxStrDigits
  · rw [value_of_short hshort (hminutes.trans_le htwo), pyInt_of_short hshort,
      pyInt_of_length hminutes htwo, pyInt_of_length hseconds htwo, pyInt_of_short hfraction]
    unfold Fields.milliseconds
    rw [← hunit]
    rfl
  · rw [value_of_long fun hboth => hshort hboth.1, pyInt_of_long hshort]
    rfl

theorem read_hourless {m s f : Str} (hseconds : s.length = 2) (hfraction : f.length = 3) :
    (do return (← pyInt m) * 60000 + (← pyInt s) * 1000 + (← pyInt f)) =
      Fields.value ⟨[], m, s, f⟩ := by
  have hnone : valueOf [] * 3600000 = 0 := rfl
  by_cases hshort : m.length ≤ maxStrDigits
  · rw [value_of_short (Nat.zero_le _) hshort, pyInt_of_short hshort,
      pyInt_of_length hseconds (by decide), pyInt_of_length hfraction (by decide)]
    unfold Fields.milliseconds
    rw [← thousandths hfraction, hnone, Nat.zero_add]
    rfl
  · rw [value_of_long fun hboth => hshort hboth.2, pyInt_of_long hshort]
    rfl

theorem read_twoDigits {h m s f : Str} (hhours : h.length = 2) (hminutes : m.length = 2)
    (hseconds : s.length = 2) : (do
      let ms ← pyInt ((ljustZero 3 f).take 3)
      return (← pyInt h) * 3600000 + (← pyInt m) * 60000 + (← pyInt s) * 1000 + ms) =
        Fields.value ⟨h, m, s, f⟩ := by
  have htwo : 2 ≤ maxStrDigits := by decide
  rw [value_of_short (hhours.trans_le htwo) (hminutes.trans_le htwo), pyInt_thousandths,
    pyInt_of_length hhours htwo, pyInt_of_length hminutes htwo, pyInt_of_length hseconds htwo]
  rfl

/-- Every branch reads the value of its timecode, whatever the unit of its fraction is. -/
theorem read_eq (h : IsTimecode format g (format.fields m)) :
    format.read m = (format.fields m).value := by
  obtain ⟨hseconds, hfraction, hhours⟩ := h.lengths
  cases format with
  | srt =>
    obtain ⟨hhours, hminutes⟩ | ⟨hformat, _⟩ := hhours
    · exact read_twoDigits hhours hminutes hseconds
    · cases hformat
  | ass =>
    obtain ⟨_, hminutes⟩ | ⟨hformat, _⟩ := hhours
    · exact read_hours (k := (· * 10)) hminutes hseconds (Eq.trans_le hfraction (by decide))
        (hundredths hfraction)
    · cases hformat
  | vttHours =>
    obtain ⟨_, hminutes⟩ | ⟨hformat, _⟩ := hhours
    · exact read_hours (k := fun ms => ms) hminutes hseconds
        (Eq.trans_le hfraction (by decide)) (thousandths hfraction)
    · cases hformat
  | vttHourless => exact read_hourless hseconds hfraction

theorem leaves_no_digit (h : format.Leaves tc) : ∀ c, tc.head? = some c → isDigit c = false := by
  intro c hc
  cases format with
  | srt => exact h c hc
  | ass | vttHours | vttHourless =>
    rcases h with rfl | rfl
    · cases hc
    · cases hc
      decide +kernel

/-- A match is of a timecode in front, and its branch reads the value. -/
theorem read_of_match (h : matchStart format.pattern tc = some m) :
    ∃ g rest, tc = g ++ rest ∧ IsTimecode format g (format.fields m) ∧
      (∀ c, rest.head? = some c → isDigit c = false) ∧
      format.read m = (format.fields m).value := by
  obtain ⟨g, rest, htc, htimecode, hrest⟩ := format_match_iff.mp ⟨m, h, rfl⟩
  exact ⟨g, rest, htc, htimecode, leaves_no_digit hrest, read_eq htimecode⟩

/-- Formats that match the same text read the same value in it. -/
theorem reads_agree (h : matchStart format.pattern tc = some m)
    (h' : matchStart format'.pattern tc = some m') : format.read m = format'.read m' := by
  obtain ⟨g, rest, htc, htimecode, hrest, hread⟩ := read_of_match h
  obtain ⟨g', rest', htc', htimecode', hrest', hread'⟩ := read_of_match h'
  rw [hread, hread', htimecode.unique htimecode' hrest hrest' (htc.symm.trans htc')]

/-- Whatever is tried before, a format that matches is as good as any other. -/
theorem tryEach_of_match (hmem : format ∈ formats) (h : matchStart format.pattern tc = some m) :
    TcFormat.tryEach formats tc = format.read m := by
  induction formats with
  | nil => cases hmem
  | cons first formats ih =>
    unfold TcFormat.tryEach
    cases hfirst : matchStart first.pattern tc with
    | some m' => exact reads_agree hfirst h
    | none =>
      rcases List.mem_cons.mp hmem with rfl | hmem
      · cases hfirst.symm.trans h
      · exact ih hmem

theorem tryEach_of_none (h : ∀ format ∈ formats, matchStart format.pattern tc = none) :
    TcFormat.tryEach formats tc = .ok 0 := by
  induction formats with
  | nil => rfl
  | cons first formats ih =>
    obtain ⟨hfirst, hformats⟩ := List.forall_mem_cons.mp h
    unfold TcFormat.tryEach
    rw [hfirst]
    exact ih hformats

theorem mem_inOrder (format : TcFormat) : format ∈ TcFormat.inOrder := by
  cases format <;> decide

/-- A well-formed timecode is read to its value, or its first number is too long for that. -/
theorem tcToMs_of_isTimecode (h : IsTimecode format tc t) : tcToMs tc = t.value := by
  obtain ⟨m, hmatch, rfl⟩ := format_match_iff.mpr
    ⟨tc, [], (List.append_nil tc).symm, h, by cases format <;> simp [TcFormat.Leaves]⟩
  rw [tcToMs_eq, h.strip_eq, tryEach_of_match (mem_inOrder format) hmatch, read_eq h]

end Values

/-- Timecodes are read to their values, formats that match agree in whatever order they are
tried, and what matches no pattern is zero. -/
def ReadsConsistently (tc : Str) : Prop :=
  (∀ format t, IsTimecode format tc t → tcToMs tc = .ok t.milliseconds) ∧
  (∀ (format format' : TcFormat) (m m' : Found), matchStart format.pattern (strip tc) = some m →
    matchStart format'.pattern (strip tc) = some m' → format.read m = format'.read m') ∧
  (∀ formats : List TcFormat, formats.Perm TcFormat.inOrder →
    TcFormat.tryEach formats (strip tc) = tcToMs tc) ∧
  ((∀ format : TcFormat, matchStart format.pattern (strip tc) = none) → tcToMs tc = .ok 0)

theorem reads_consistently_iff (tc : Str) :
    ReadsConsistently tc ↔ ∀ format t, IsTimecode format tc t →
      t.hours.length ≤ maxStrDigits ∧ t.minutes.length ≤ maxStrDigits := by
  have hvalue : ∀ {t : Fields}, t.value = .ok t.milliseconds ↔
      t.hours.length ≤ maxStrDigits ∧ t.minutes.length ≤ maxStrDigits := by
    intro t
    unfold Fields.value
    split
    next hshort => exact iff_of_true rfl hshort
    next hlong => exact iff_of_false nofun hlong
  have horder : ∀ formats : List TcFormat, (∀ format, format ∈ formats) →
      TcFormat.tryEach formats (strip tc) = tcToMs tc := by
    intro formats hall
    rw [tcToMs_eq]
    by_cases hmatch : ∃ format m, matchStart (TcFormat.pattern format) (strip tc) = some m
    · obtain ⟨format, m, hm⟩ := hmatch
      rw [tryEach_of_match (hall format) hm, tryEach_of_match (mem_inOrder format) hm]
    · have hnone : ∀ format, matchStart (TcFormat.pattern format) (strip tc) = none := by
        intro format
        by_contra hsome
        obtain ⟨m, hm⟩ := Option.ne_none_iff_exists'.mp hsome
        exact hmatch ⟨format, m, hm⟩
      rw [tryEach_of_none fun format _ => hnone format,
        tryEach_of_none fun format _ => hnone format]
  constructor
  · rintro ⟨hvalues, _⟩ format t htimecode
    rw [← hvalue, ← tcToMs_of_isTimecode htimecode]
    exact hvalues format t htimecode
  · intro hshort
    refine ⟨fun format t htimecode => ?_, fun _ _ _ _ => reads_agree, fun formats hperm => ?_,
      fun hnone => ?_⟩
    · rw [tcToMs_of_isTimecode htimecode, hvalue]
      exact hshort format t htimecode
    · exact horder formats fun format => hperm.mem_iff.mpr (mem_inOrder format)
    · rw [tcToMs_eq]
      exact tryEach_of_none fun format _ => hnone format

/-- Hours of more digits than an integer is read with. -/
theorem overlong_hours_raise :
    ¬ ReadsConsistently (List.replicate 4301 '1' ++ ":00:00.00") := by
  have hzeros : ("00" : Str).all isDigit = true := by decide +kernel
  have hnumber : Number (· = 2) "00" := ⟨List.all_eq_true.mp hzeros, rfl⟩
  have hdigits : ∀ c ∈ List.replicate 4301 '1', isDigit c = true := by
    intro c hc
    rw [List.eq_of_mem_replicate hc]
    decide +kernel
  have hlength : (List.replicate 4301 '1').length = 4301 := List.length_replicate
  generalize List.replicate 4301 '1' = hours at hdigits hlength ⊢
  have htimecode : IsTimecode .ass (hours ++ ":00:00.00") ⟨hours, "00", "00", "00"⟩ :=
    .clock (x := '.') ⟨hdigits, hlength ▸ Nat.succ_pos _⟩ hnumber hnumber rfl hnumber
  intro h
  have hraises := tcToMs_of_isTimecode htimecode
  rw [h.1 _ _ htimecode, value_of_long] at hraises
  · cases hraises
  · rintro ⟨hshort, _⟩
    exact absurd (hlength ▸ hshort) (by decide)

end Trezarr
